import LlmCache.Store.TieredRedis

/-!
# Two namespaces on one server

Every name of a backend starts with its namespace and a colon, so the backend
never sees or touches a name that does not.  A namespace that holds the other
one up to a colon is inside it.
-/

namespace LlmCache.Store.RedisIsolation

open Errors Lib Payload LlmCache.Types RedisBackend

/-- The names that start with the namespace and a colon. -/
def owned («namespace» name : String) : Bool :=
  («namespace» ++ ":").toList.isPrefixOf name.toList

/-! ## What a backend sees of the server -/

section View

variable {p : String → Bool} {name : String} (client : RedisClient)

theorem set_restrict (value : List UInt8) (ex : Option Int) :
    (RedisClient.set (client.restrict p) name value ex).1 =
        (RedisClient.set client name value ex).1 ∧
      OrderedDict.restrict (RedisClient.set client name value ex).2 p =
        if p name then (RedisClient.set (client.restrict p) name value ex).2
        else client.restrict p := by
  unfold RedisClient.set
  cases ex with
  | none => exact ⟨rfl, OrderedDict.restrict_setItem ..⟩
  | some seconds =>
      by_cases hsec : seconds ≤ 0
      · simp only [if_pos hsec]
        exact ⟨trivial, (ite_self _).symm⟩
      · simp only [if_neg hsec]
        exact ⟨trivial, OrderedDict.restrict_setItem ..⟩

theorem persist_restrict :
    OrderedDict.restrict (RedisClient.persist client name) p =
      if p name then RedisClient.persist (client.restrict p) name else client.restrict p := by
  unfold RedisClient.persist
  by_cases hname : p name
  · rw [if_pos hname, OrderedDict.lookup_restrict client hname]
    cases client.lookup name with
    | none => rfl
    | some entry => exact (OrderedDict.restrict_setItem ..).trans (if_pos hname)
  · rw [if_neg hname]
    cases client.lookup name with
    | none => rfl
    | some entry => exact (OrderedDict.restrict_setItem ..).trans (if_neg hname)

theorem expire_restrict (seconds : Int) :
    OrderedDict.restrict (RedisClient.expire client name seconds) p =
      if p name then RedisClient.expire (client.restrict p) name seconds
      else client.restrict p := by
  unfold RedisClient.expire
  by_cases hname : p name
  · rw [if_pos hname, OrderedDict.lookup_restrict client hname]
    cases client.lookup name with
    | none => rfl
    | some entry =>
        by_cases hsec : seconds ≤ 0
        · simp only [if_pos hsec]
          exact (OrderedDict.restrict_erase ..).trans (if_pos hname)
        · simp only [if_neg hsec]
          exact (OrderedDict.restrict_setItem ..).trans (if_pos hname)
  · rw [if_neg hname]
    cases client.lookup name with
    | none => rfl
    | some entry =>
        by_cases hsec : seconds ≤ 0
        · simp only [if_pos hsec]
          exact (OrderedDict.restrict_erase ..).trans (if_neg hname)
        · simp only [if_neg hsec]
          exact (OrderedDict.restrict_setItem ..).trans (if_neg hname)

end View

section Backend

variable {codec : RedisCodec} {p : String → Bool} {s : RedisBackend codec} {key : ChunkKey}

/-- The backend on the part of the server that satisfies `p`. -/
def within (s : RedisBackend codec) (p : String → Bool) : RedisBackend codec :=
  { s with client := s.client.restrict p }

theorem put_within (obj : KVPayload) (pin : Bool) :
    ((within s p).put key obj pin).1 = (s.put key obj pin).1 ∧
      within (s.put key obj pin).2 p =
        if p (s.name key) then ((within s p).put key obj pin).2 else within s p := by
  have hname : (within s p).name key = s.name key := rfl
  have hclient : (within s p).client = s.client.restrict p := rfl
  have httl : (within s p).keyTtl = s.keyTtl := rfl
  unfold put
  rw [hname, hclient, httl]
  cases codec.pack obj with
  | error err => exact ⟨rfl, (ite_self _).symm⟩
  | ok blob =>
      have hset := @set_restrict p (s.name key) s.client blob
        (if pin then none else s.keyTtl)
      simp only
      generalize RedisClient.set s.client (s.name key) blob (if pin then none else s.keyTtl) = out
        at hset ⊢
      generalize RedisClient.set (s.client.restrict p) (s.name key) blob
        (if pin then none else s.keyTtl) = out' at hset ⊢
      obtain ⟨res, client⟩ := out
      obtain ⟨res', client'⟩ := out'
      obtain ⟨hres, hrestrict⟩ := hset
      simp only at hres hrestrict
      subst hres
      cases res' with
      | error err =>
          refine ⟨rfl, ?_⟩
          simp only [within, hrestrict]
          split_ifs <;> rfl
      | ok done =>
          cases pin with
          | false =>
              refine ⟨rfl, ?_⟩
              simp only [within, hrestrict, Bool.false_eq_true, if_false]
              split_ifs <;> rfl
          | true =>
              refine ⟨rfl, ?_⟩
              simp only [within, persist_restrict, hrestrict, if_true]
              split_ifs <;> rfl

theorem remove_within :
    (p (s.name key) → ((within s p).remove key).1 = (s.remove key).1) ∧
      within (s.remove key).2 p =
        if p (s.name key) then ((within s p).remove key).2 else within s p := by
  have hname : (within s p).name key = s.name key := rfl
  refine ⟨fun howned => ?_, ?_⟩
  · simp only [remove, hname, decide_eq_decide]
    exact OrderedDict.mem_restrict howned
  · simp only [within, remove, OrderedDict.restrict_erase]
    split_ifs <;> rfl

theorem pin_within :
    within (s.pin key) p = if p (s.name key) then (within s p).pin key else within s p := by
  simp only [within, RedisBackend.pin, persist_restrict]
  split_ifs <;> rfl

theorem unpin_within :
    within (s.unpin key) p = if p (s.name key) then (within s p).unpin key else within s p := by
  have httl : (within s p).keyTtl = s.keyTtl := rfl
  simp only [unpin, httl]
  cases hseconds : s.keyTtl with
  | none => exact (ite_self _).symm
  | some seconds =>
      simp only [within, expire_restrict]
      split_ifs
      · rw [hseconds]
        rfl
      · rw [hseconds]

theorem get_within (howned : p (s.name key) = true) : (within s p).get key = s.get key := by
  have hlookup : (within s p).client.lookup ((within s p).name key) =
      s.client.lookup (s.name key) := OrderedDict.lookup_restrict s.client howned
  rw [RedisBackend.get, hlookup, RedisBackend.get]

theorem contains_within (howned : p (s.name key) = true) :
    (within s p).contains key = s.contains key := by
  simp only [contains, decide_eq_decide]
  exact OrderedDict.mem_restrict howned

theorem keys_within (hforeign : ∀ name, p name = false → s.parse name = none) :
    (within s p).keys = s.keys := by
  have hkeys : (within s p).client.keys = s.client.keys.filter p := OrderedDict.keys_restrict _ p
  have hparse : (within s p).parse = s.parse := rfl
  have hnamespace : (within s p).«namespace» = s.«namespace» := rfl
  rw [RedisBackend.keys, RedisBackend.keys, hkeys, hparse, hnamespace, List.filterMap_filter,
    List.filterMap_filter, List.filterMap_filter]
  apply List.filterMap_congr
  intro name _
  cases howned : p name with
  | true => exact if_pos rfl
  | false =>
      rw [hforeign name howned]
      simp

/-- The calls for one backend: those of every store, and the listing of its keys. -/
inductive Call where
  | op (op : KeyedStore.Op ChunkKey KVPayload)
  | keys

inductive Answer where
  | reply (reply : KeyedStore.Reply KVPayload)
  | keys (keys : List ChunkKey)
deriving DecidableEq

def call (s : RedisBackend codec) : Call → Except Raised Answer × RedisBackend codec
  | .op op => ((KeyedStore.step s op).1.map .reply, (KeyedStore.step s op).2)
  | .keys => (.ok (.keys s.keys), s)

theorem foldl_remove_within (howned : ∀ key, p (s.name key) = true) (removed : List ChunkKey) :
    within (removed.foldl (fun s key => (s.remove key).2) s) p =
      removed.foldl (fun s key => (s.remove key).2) (within s p) := by
  induction removed generalizing s with
  | nil => rfl
  | cons key removed ih =>
      have hremove := (@remove_within codec p s key).2
      rw [if_pos (howned key)] at hremove
      rw [List.foldl_cons, List.foldl_cons, ← hremove]
      exact ih howned

/-- Where `p` holds of its names and of no name that it would list besides, a
backend acts on that part of the server alone. -/
theorem call_within (howned : ∀ key, p (s.name key) = true)
    (hforeign : ∀ name, p name = false → s.parse name = none) (c : Call) :
    (call (within s p) c).1 = (call s c).1 ∧ within (call s c).2 p = (call (within s p) c).2 := by
  cases c with
  | keys => exact ⟨by rw [call, call, keys_within hforeign], rfl⟩
  | op op =>
      cases op with
      | put key obj pin =>
          have hput := @put_within codec p s key obj pin
          rw [if_pos (howned key)] at hput
          exact ⟨congrArg (fun res => (res.map fun _ => KeyedStore.Reply.done).map Answer.reply)
            hput.1, hput.2⟩
      | get key =>
          have hget := get_within (howned key)
          exact ⟨congrArg (fun res => (res.map KeyedStore.Reply.object).map Answer.reply) hget, rfl⟩
      | contains key =>
          have hcontains := contains_within (howned key)
          exact ⟨congrArg (fun b => Except.ok (Answer.reply (.flag b))) hcontains, rfl⟩
      | remove key =>
          obtain ⟨hflag, hafter⟩ := @remove_within codec p s key
          rw [if_pos (howned key)] at hafter
          refine ⟨?_, hafter⟩
          exact congrArg (fun b => Except.ok (Answer.reply (.flag b))) (hflag (howned key))
      | pin key => exact ⟨rfl, pin_within.trans (if_pos (howned key))⟩
      | unpin key => exact ⟨rfl, unpin_within.trans (if_pos (howned key))⟩
      | clear =>
          refine ⟨rfl, ?_⟩
          show within (s.keys.foldl (fun s key => (s.remove key).2) s) p =
            (within s p).keys.foldl (fun s key => (s.remove key).2) (within s p)
          rw [keys_within hforeign]
          exact foldl_remove_within howned s.keys

/-- A backend none of whose names is in the part leaves the part alone. -/
theorem call_outside (hnone : ∀ key, p (s.name key) = false) (c : Call) :
    within (call s c).2 p = within s p := by
  have hneg : ∀ key, ¬p (s.name key) = true := fun key => by rw [hnone key]; simp
  have hremove : ∀ (removed : List ChunkKey) (s : RedisBackend codec),
      (∀ key, ¬p (s.name key) = true) →
      within (removed.foldl (fun s key => (s.remove key).2) s) p = within s p := by
    intro removed
    induction removed with
    | nil => exact fun _ _ => rfl
    | cons key removed ih =>
        intro s hneg
        rw [List.foldl_cons, ih (s.remove key).2 hneg]
        exact remove_within.2.trans (if_neg (hneg key))
  cases c with
  | keys => rfl
  | op op =>
      cases op with
      | put key obj pin => exact (put_within obj pin).2.trans (if_neg (hneg key))
      | get key => rfl
      | contains key => rfl
      | remove key => exact remove_within.2.trans (if_neg (hneg key))
      | pin key => exact pin_within.trans (if_neg (hneg key))
      | unpin key => exact unpin_within.trans (if_neg (hneg key))
      | clear => exact hremove s.keys s hneg

end Backend

/-! ## Two backends on one server -/

/-- Whose call it is. -/
inductive Tenant where
  | first
  | second
deriving DecidableEq

section Shared

variable (codec : RedisCodec) («namespace» : Tenant → String) (keyTtl : Tenant → Option Int)

/-- The backend of a tenant on the shared server. -/
def backend (client : RedisClient) (tenant : Tenant) : RedisBackend codec where
  client := client
  «namespace» := «namespace» tenant
  keyTtl := keyTtl tenant

/-- The server, driven by the calls on the two backends. -/
def server : Machine RedisClient (Tenant × Call) Raised Answer where
  step client entry :=
    let out := call (backend codec «namespace» keyTtl client entry.1) entry.2
    (out.1, out.2.client)

/-- In every run the first tenant sees what it sees in the run without the
second tenant's calls. -/
def Isolated : Prop :=
  ∀ (client : RedisClient) (ops : List (Tenant × Call)),
    ((server codec «namespace» keyTtl).trace client ops).filter (fun entry =>
        decide (entry.1.1 = .first)) =
      (server codec «namespace» keyTtl).trace client
        (ops.filter fun entry => decide (entry.1 = .first))

variable {codec «namespace» keyTtl}

theorem server_step (client : RedisClient) (tenant : Tenant) (c : Call) :
    (server codec «namespace» keyTtl).step client (tenant, c) =
      ((call (backend codec «namespace» keyTtl client tenant) c).1,
        (call (backend codec «namespace» keyTtl client tenant) c).2.client) := rfl

theorem owned_iff {ns name : String} : owned ns name = true ↔ (ns ++ ":").toList <+: name.toList :=
  List.isPrefixOf_iff_prefix

theorem owned_name (s : RedisBackend codec) (key : ChunkKey) :
    owned s.«namespace» (s.name key) = true :=
  owned_iff.mpr (s.prefix_name key)

theorem parse_of_not_owned (s : RedisBackend codec) {name : String}
    (h : owned s.«namespace» name = false) : s.parse name = none := by
  have hforeign : ¬(s.«namespace» ++ ":").toList.isPrefixOf name.toList = true := by
    rw [owned] at h
    rw [h]
    exact Bool.false_ne_true
  rw [parse, if_pos hforeign]

/-- The first tenant's names are all it sees, and all of them are seen alike. -/
theorem server_step_first {client client' : RedisClient}
    (hrel : client.restrict (owned («namespace» .first)) =
      client'.restrict (owned («namespace» .first))) (c : Call) :
    ((server codec «namespace» keyTtl).step client (.first, c)).1 =
        ((server codec «namespace» keyTtl).step client' (.first, c)).1 ∧
      ((server codec «namespace» keyTtl).step client (.first, c)).2.restrict
          (owned («namespace» .first)) =
        ((server codec «namespace» keyTtl).step client' (.first, c)).2.restrict
          (owned («namespace» .first)) := by
  let s := backend codec «namespace» keyTtl client .first
  let s' := backend codec «namespace» keyTtl client' .first
  have hown := call_within (s := s) (owned_name s) (fun _ => parse_of_not_owned s) c
  have hown' := call_within (s := s') (owned_name s') (fun _ => parse_of_not_owned s') c
  have hwithin : within s (owned s.«namespace») = within s' (owned s'.«namespace») := by
    simp only [s, s', within, backend, hrel]
  rw [hwithin] at hown
  rw [server_step, server_step]
  constructor
  · exact hown.1.symm.trans hown'.1
  · exact congrArg RedisBackend.client (hown.2.trans hown'.2.symm)

theorem not_owned_name
    (h : ¬(«namespace» .first ++ ":").toList <+: («namespace» .second ++ ":").toList)
    (h' : ¬(«namespace» .second ++ ":").toList <+: («namespace» .first ++ ":").toList)
    (client : RedisClient) (key : ChunkKey) :
    owned («namespace» .first) ((backend codec «namespace» keyTtl client .second).name key) =
      false := by
  rw [← Bool.not_eq_true]
  intro howned
  have hself := owned_name (backend codec «namespace» keyTtl client .second) key
  exact (List.prefix_or_prefix_of_prefix (owned_iff.mp howned) (owned_iff.mp hself)).elim h h'

theorem isolated_of_not_prefix
    (h : ¬(«namespace» .first ++ ":").toList <+: («namespace» .second ++ ":").toList)
    (h' : ¬(«namespace» .second ++ ":").toList <+: («namespace» .first ++ ":").toList) :
    Isolated codec «namespace» keyTtl := by
  intro client ops
  apply (server codec «namespace» keyTtl).trace_filter
    (fun entry : Tenant × Call => entry.1 = .first) (fun _ => True)
    (R := fun client client' => client.restrict (owned («namespace» .first)) =
      client'.restrict (owned («namespace» .first)))
  · rintro client client' ⟨tenant, c⟩ hrel rfl
    exact server_step_first hrel c
  · rintro client client' ⟨tenant, c⟩ hrel hother -
    cases tenant with
    | first => exact absurd rfl hother
    | second =>
        have hnone := @not_owned_name codec _ keyTtl h h' client
        exact (congrArg RedisBackend.client (call_outside hnone c)).trans hrel
  · rfl
  · exact fun _ _ => .inr trivial

/-- A namespace that continues another one past a colon names the other's keys. -/
theorem exists_same_name (s s' : RedisBackend codec)
    (h : (s.«namespace» ++ ":").toList <+: ( s'.«namespace» ++ ":").toList) (key : ChunkKey) :
    ∃ k, s.name k = s'.name key := by
  obtain ⟨rest, hrest⟩ := h
  rw [String.toList_append, String.toList_append] at hrest
  rcases List.eq_nil_or_concat rest with rfl | ⟨middle, last, rfl⟩
  · have hsame : s.«namespace».toList = s'.«namespace».toList := by simpa using hrest
    refine ⟨key, String.toList_injective ?_⟩
    rw [toList_name, toList_name, hsame]
  · have hsplit : (s.«namespace».toList ++ ":".toList ++ middle) ++ [last] =
        s'.«namespace».toList ++ ":".toList := by
      rw [← hrest, List.concat_eq_append, List.append_assoc _ middle]
    refine ⟨{ key with cacheId := String.ofList middle ++ ":" ++ key.cacheId }, ?_⟩
    apply String.toList_injective
    rw [toList_name, toList_name, ← (List.append_inj' hsplit rfl).1]
    simp

/-- A pinned object of the second tenant under a name that the first one uses. -/
theorem not_isolated_of_same_name {obj : KVPayload} {blob : List UInt8}
    (hpack : codec.pack obj = .ok blob) {key k : ChunkKey}
    (hname : (backend codec «namespace» keyTtl ∅ .first).name k =
      (backend codec «namespace» keyTtl ∅ .second).name key) :
    ¬Isolated codec «namespace» keyTtl := by
  intro h
  let s := backend codec «namespace» keyTtl ∅ .second
  let stored := backend codec «namespace» keyTtl (s.put key obj true).2.client .first
  have hcontains : stored.contains k = true := by
    have hok : (s.put key obj true).1 = .ok () ∧
        (s.put key obj true).2.«namespace» = s.«namespace» := by
      rw [put, hpack]
      exact ⟨rfl, rfl⟩
    obtain ⟨entry, hentry, -⟩ := durable_put_pin hok.1
    have hstored : stored.name k = (s.put key obj true).2.name key := by
      apply hname.trans
      rw [name, name, hok.2]
    rw [contains_eq, RedisBackend.entry, hstored]
    exact Option.isSome_iff_exists.mpr ⟨entry, hentry⟩
  have hrun := h ∅ [(.second, .op (.put key obj true)), (.first, .op (.contains k))]
  have hfirst : (server codec «namespace» keyTtl).trace ∅ [(.first, .op (.contains k))] =
      [((.first, .op (.contains k)), .ok (.reply (.flag false)))] := rfl
  have hboth : ((server codec «namespace» keyTtl).trace ∅
        [(.second, .op (.put key obj true)), (.first, .op (.contains k))]).filter (fun entry =>
          decide (entry.1.1 = .first)) =
      [((.first, .op (.contains k)), .ok (.reply (.flag (stored.contains k))))] := rfl
  rw [hboth, hcontains] at hrun
  have hreply := (Prod.mk.inj (List.cons.inj (hrun.trans hfirst)).1).2
  cases hreply

theorem isolated_iff (hpack : ∃ obj blob, codec.pack obj = .ok blob) :
    Isolated codec «namespace» keyTtl ↔
      ¬(«namespace» .first ++ ":").toList <+: («namespace» .second ++ ":").toList ∧
        ¬(«namespace» .second ++ ":").toList <+: («namespace» .first ++ ":").toList := by
  obtain ⟨obj, blob, hpack⟩ := hpack
  constructor
  · intro h
    refine ⟨fun hprefix => ?_, fun hprefix => ?_⟩
    · obtain ⟨k, hname⟩ := exists_same_name (backend codec «namespace» keyTtl ∅ .first)
        (backend codec «namespace» keyTtl ∅ .second) hprefix ⟨"", 0, 0⟩
      exact not_isolated_of_same_name hpack hname h
    · obtain ⟨key, hname⟩ := exists_same_name (backend codec «namespace» keyTtl ∅ .second)
        (backend codec «namespace» keyTtl ∅ .first) hprefix ⟨"", 0, 0⟩
      exact not_isolated_of_same_name hpack hname.symm h
  · rintro ⟨h, h'⟩
    exact isolated_of_not_prefix h h'

end Shared

/-- The namespaces of the two tenants. -/
def namespaces (first second : String) : Tenant → String
  | .first => first
  | .second => second

theorem isolated_iff_sample :
    (∃ obj blob, TieredRedis.rawCodec.pack obj = .ok blob) ∧
      Isolated TieredRedis.rawCodec (namespaces "a" "ab") (fun _ => some 30) := by
  have hpack : TieredRedis.rawCodec.pack (.ofBytes [1]) = .ok (TieredRedis.rawFrame ++ [1]) :=
    rfl
  exact ⟨⟨_, _, hpack⟩, (isolated_iff ⟨_, _, hpack⟩).mpr (by decide)⟩

/-- The first namespace continues the second one: clearing the second empties a
cache of the first. -/
theorem clear_crosses_namespaces :
    let run := server TieredRedis.rawCodec (namespaces "a:b" "a") fun _ => none
    let ops : List (Tenant × Call) :=
      [(.first, .op (.put ⟨"x", 0, 0⟩ (.ofBytes [1]) false)), (.second, .op .clear),
        (.first, .op (.contains ⟨"x", 0, 0⟩))]
    "a:b" ≠ "a" ∧
      ((run.trace ∅ ops).filter fun entry => decide (entry.1.1 = .first)).map Prod.snd ≠
        (run.trace ∅ (ops.filter fun entry => decide (entry.1 = .first))).map Prod.snd := by
  decide +kernel

end LlmCache.Store.RedisIsolation
