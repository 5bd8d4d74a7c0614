import LlmCache.Store.TieredRedis

/-!
# The names on a Redis server

A name ends in two numbers, and a colon stands in neither, so splitting twice
from the right gives back the key whatever the namespace and the id contain.
`SCAN` therefore lists the keys that were put and not removed, each once.
-/

namespace LlmCache.Store.RedisKeys

open Errors Lib Payload LlmCache.Types RedisBackend
open KeyedStore (Op Reply)

variable {codec : RedisCodec}

/-- The text stands for itself in a `SCAN` pattern. -/
def GlobFree (text : String) : Prop :=
  ∀ c ∈ text.toList, c ∉ ['*', '?', '[', ']', '\\']

/-- A literal text before a star matches the names that start with the text. -/
def Globs (matchesPattern : String → String → Bool) : Prop :=
  ∀ text name, GlobFree text →
    (matchesPattern (text ++ "*") name = true ↔ text.toList <+: name.toList)

/-- The client holds only names of this backend. -/
def OwnNames (s : RedisBackend codec) : Prop :=
  ∀ name ∈ s.client, ∃ key, name = s.name key

/-- What an entry of a history says about a key: that it has been put, or that it
has been removed. -/
def tells : Op ChunkKey KVPayload × Except Raised (Reply KVPayload) → Option (ChunkKey × Bool)
  | (.put key .., .ok _) => some (key, true)
  | (.remove key, .ok _) => some (key, false)
  | _ => none

/-- The key has been put and not removed since, or was there from the start. -/
def Stored (start : RedisBackend codec)
    (past : List (Op ChunkKey KVPayload × Except Raised (Reply KVPayload)))
    (key : ChunkKey) : Prop :=
  (Machine.lastOf tells past key).getD (start.contains key) = true

instance (start : RedisBackend codec)
    (past : List (Op ChunkKey KVPayload × Except Raised (Reply KVPayload))) (key : ChunkKey) :
    Decidable (Stored start past key) :=
  inferInstanceAs (Decidable (_ = true))

/-- A call of `put` or `remove`. -/
def Writes : Op ChunkKey KVPayload → Prop
  | .put .. | .remove _ => True
  | _ => False

instance : DecidablePred Writes := fun op =>
  match op with
  | .put .. | .remove _ => .isTrue trivial
  | .get _ | .contains _ | .pin _ | .unpin _ | .clear => .isFalse id

/-! ## Listing -/

theorem globFree_header {s : RedisBackend codec} (h : GlobFree s.«namespace») :
    GlobFree (s.«namespace» ++ ":") := by
  intro c hc
  rw [String.toList_append, List.mem_append] at hc
  rcases hc with hc | hc
  · exact h c hc
  · obtain rfl : c = ':' := by simpa using hc
    decide

theorem keys_eq {s : RedisBackend codec} (hglobs : Globs codec.matchesPattern)
    (hfree : GlobFree s.«namespace») (hown : OwnNames s) :
    s.keys = s.client.keys.filterMap s.parse := by
  have hpattern : s.«namespace» ++ ":*" = s.«namespace» ++ ":" ++ "*" := by
    rw [String.append_assoc]
    rfl
  have hall : s.client.keys.filter (codec.matchesPattern (s.«namespace» ++ ":*")) =
      s.client.keys := by
    apply List.filter_eq_self.mpr
    intro name hname
    obtain ⟨key, rfl⟩ := hown name hname
    rw [hpattern]
    exact (hglobs _ _ (globFree_header hfree)).mpr (s.prefix_name key)
  rw [RedisBackend.keys, hall]

theorem mem_keys_iff {s : RedisBackend codec} (hglobs : Globs codec.matchesPattern)
    (hfree : GlobFree s.«namespace») (hown : OwnNames s) (key : ChunkKey) :
    key ∈ s.keys ↔ s.name key ∈ s.client := by
  rw [keys_eq hglobs hfree hown, List.mem_filterMap]
  constructor
  · rintro ⟨name, hname, hparse⟩
    obtain ⟨k, rfl⟩ := hown name hname
    rw [s.parse_name k] at hparse
    obtain rfl := Option.some.inj hparse
    exact hname
  · intro hname
    exact ⟨s.name key, hname, s.parse_name key⟩

theorem nodup_keys {s : RedisBackend codec} (hglobs : Globs codec.matchesPattern)
    (hfree : GlobFree s.«namespace») (hown : OwnNames s) : s.keys.Nodup := by
  rw [keys_eq hglobs hfree hown, List.Nodup, List.pairwise_filterMap]
  have hnodup : s.client.keys.Nodup := s.client.nodupKeys
  apply hnodup.imp_of_mem
  intro name name' hname hname' hne k hk k' hk'
  obtain ⟨key, rfl⟩ := hown name hname
  obtain ⟨key', rfl⟩ := hown name' hname'
  rw [s.parse_name key] at hk
  rw [s.parse_name key'] at hk'
  obtain rfl := Option.some.inj hk
  obtain rfl := Option.some.inj hk'
  intro heq
  exact hne (congrArg s.name heq)

/-! ## Puts and removes -/

theorem mem_client_iff (s : RedisBackend codec) (name : String) :
    name ∈ s.client ↔ (s.client.lookup name).isSome :=
  AList.lookup_isSome.symm

theorem mem_client_put (s : RedisBackend codec) (key : ChunkKey) (obj : KVPayload) (pin : Bool)
    (name : String) :
    name ∈ (s.put key obj pin).2.client ↔
      name ∈ s.client ∨ name = s.name key ∧ (s.put key obj pin).1 = .ok () := by
  rcases s.put_client_cases key obj pin with ⟨err, hput, _⟩ | ⟨blob, client, _, hput, hlookup⟩
  · simp [hput]
  · rw [hput, ← AList.lookup_isSome, hlookup, mem_client_iff]
    by_cases hname : name = s.name key <;> simp [hname]

theorem mem_client_remove (s : RedisBackend codec) (key : ChunkKey) (name : String) :
    name ∈ (s.remove key).2.client ↔ name ∈ s.client ∧ name ≠ s.name key := by
  rw [RedisBackend.remove, AList.mem_erase, and_comm]

/-! ## Runs -/

/-- The names are those of the first backend, all of them own, and those in the
client are the stored ones. -/
structure Listed (start : RedisBackend codec)
    (past : List (Op ChunkKey KVPayload × Except Raised (Reply KVPayload)))
    (s : RedisBackend codec) : Prop where
  same : s.«namespace» = start.«namespace»
  own : OwnNames s
  stored : ∀ key, s.name key ∈ s.client ↔ Stored start past key

theorem stored_snoc {start : RedisBackend codec}
    {past : List (Op ChunkKey KVPayload × Except Raised (Reply KVPayload))} {entry}
    {key : ChunkKey} {value : Bool} (h : tells entry = some (key, value)) (k : ChunkKey) :
    Stored start (past ++ [entry]) k ↔ if k = key then value = true else Stored start past k := by
  rw [Stored, Machine.lastOf_snoc, h]
  by_cases hk : key = k
  · simp [hk]
  · simp only [if_neg hk, if_neg (Ne.symm hk), Stored]

theorem stored_snoc_none {start : RedisBackend codec}
    {past : List (Op ChunkKey KVPayload × Except Raised (Reply KVPayload))} {entry}
    (h : tells entry = none) (k : ChunkKey) :
    Stored start (past ++ [entry]) k ↔ Stored start past k := by
  rw [Stored, Machine.lastOf_snoc, h, Stored]

theorem listed_put {start s : RedisBackend codec}
    {past : List (Op ChunkKey KVPayload × Except Raised (Reply KVPayload))}
    (h : Listed start past s) (key : ChunkKey) (obj : KVPayload) (pin : Bool) :
    Listed start (past ++ [(.put key obj pin, (s.put key obj pin).1.map fun _ => .done)])
      (s.put key obj pin).2 := by
  have hname : (s.put key obj pin).2.name = s.name := name_congr (s.namespace_put key obj pin).1
  refine ⟨(s.namespace_put key obj pin).1.trans h.same, ?_, ?_⟩
  · intro name hmem
    rw [hname]
    rcases (mem_client_put s key obj pin name).mp hmem with hold | ⟨hnew, _⟩
    · exact h.own name hold
    · exact ⟨key, hnew⟩
  · intro k
    rw [hname, mem_client_put, h.stored k]
    cases hresult : (s.put key obj pin).1 with
    | error err =>
        rw [stored_snoc_none rfl]
        simp
    | ok u =>
        rw [stored_snoc rfl]
        have hsame : s.name k = s.name key ↔ k = key := ⟨s.name_inj, congrArg s.name⟩
        rw [hsame]
        by_cases hk : k = key <;> simp [hk]

theorem listed_remove {start s : RedisBackend codec}
    {past : List (Op ChunkKey KVPayload × Except Raised (Reply KVPayload))}
    (h : Listed start past s) (key : ChunkKey) :
    Listed start (past ++ [(.remove key, .ok (.flag (s.remove key).1))]) (s.remove key).2 := by
  refine ⟨h.same, ?_, ?_⟩
  · intro name hmem
    exact h.own name ((mem_client_remove s key name).mp hmem).1
  · intro k
    have hname : (s.remove key).2.name k = s.name k := rfl
    rw [hname, mem_client_remove, h.stored k, stored_snoc rfl]
    have hsame : s.name k = s.name key ↔ k = key := ⟨s.name_inj, congrArg s.name⟩
    rw [ne_eq, hsame]
    by_cases hk : k = key <;> simp [hk]

theorem listed_run {start : RedisBackend codec} (hown : OwnNames start)
    {ops : List (Op ChunkKey KVPayload)} (hops : ∀ op ∈ ops, Writes op) :
    let M := KeyedStore.machine (RedisBackend codec)
    Listed start (M.trace start ops) (M.exec start ops) := by
  intro M
  have hstart : Listed start [] start := by
    refine ⟨rfl, hown, fun key => ?_⟩
    rw [Stored, Machine.lastOf, List.foldl_nil, Option.getD_none, RedisBackend.contains,
      decide_eq_true_eq]
  have hrun := M.history_induction (G := fun _ => Writes) (I := Listed start)
    (fun past s op h hop => ?_) [] hstart (M.stepsMeet_of_forall hops start)
  · exact hrun
  · cases op with
    | put key obj pin => exact listed_put h key obj pin
    | remove key => exact listed_remove h key
    | get key => exact hop.elim
    | contains key => exact hop.elim
    | pin key => exact hop.elim
    | unpin key => exact hop.elim
    | clear => exact hop.elim

/-- A name decodes to the key it encodes, so distinct keys have distinct names,
and after any run of puts and removes the listing is what has been put and not
removed, each key once. -/
theorem names_decode (codec : RedisCodec) :
    (∀ (s : RedisBackend codec) key, s.parse (s.name key) = some key) ∧
      (∀ s : RedisBackend codec, Function.Injective s.name) ∧
      ∀ start : RedisBackend codec, Globs codec.matchesPattern → GlobFree start.«namespace» →
        OwnNames start → ∀ ops : List (Op ChunkKey KVPayload), (∀ op ∈ ops, Writes op) →
          let M := KeyedStore.machine (RedisBackend codec)
          (M.exec start ops).keys.Nodup ∧
            ∀ key, key ∈ (M.exec start ops).keys ↔ Stored start (M.trace start ops) key := by
  refine ⟨parse_name, fun s _ _ h => s.name_inj h, ?_⟩
  intro start hglobs hfree hown ops hops M
  have hlisted : Listed start (M.trace start ops) (M.exec start ops) := listed_run hown hops
  have hfree' : GlobFree (M.exec start ops).«namespace» := by
    rw [hlisted.same]
    exact hfree
  refine ⟨nodup_keys hglobs hfree' hlisted.own, fun key => ?_⟩
  rw [mem_keys_iff hglobs hfree' hlisted.own, hlisted.stored]

/-- An empty id, one that ends as a name does, and negative numbers. -/
theorem names_decode_sample :
    let start : RedisBackend TieredRedis.rawCodec := { «namespace» := "a:b" }
    let ops : List (Op ChunkKey KVPayload) :=
      [.put ⟨"", -1, 2⟩ (.ofBytes [1]) false, .put ⟨"c:0:1", 3, -4⟩ (.ofBytes [2]) true,
        .put ⟨"", -1, 2⟩ (.ofBytes [3]) false, .remove ⟨"c", 1, 0⟩]
    let M := KeyedStore.machine (RedisBackend TieredRedis.rawCodec)
    ⟨"c:0:1", 3, -4⟩ ∈ (M.exec start ops).keys ∧ ⟨"c", 1, 0⟩ ∉ (M.exec start ops).keys := by
  intro start ops M
  have hglobs : Globs TieredRedis.rawCodec.matchesPattern := by
    intro text name _
    show (text ++ "*").toList.dropLast.isPrefixOf name.toList = true ↔ _
    rw [String.toList_append, List.isPrefixOf_iff_prefix]
    simp
  have hall : (start.«namespace».toList.all fun c => c ∉ ['*', '?', '[', ']', '\\']) = true := by
    decide +kernel
  have hfree : GlobFree start.«namespace» := fun c hc =>
    of_decide_eq_true (List.all_eq_true.mp hall c hc)
  have hown : OwnNames start := fun name hname => absurd hname (AList.notMem_empty name)
  have hlisted := ((names_decode TieredRedis.rawCodec).2.2 start hglobs hfree hown ops
    (by decide +kernel)).2
  constructor
  · rw [hlisted]
    decide +kernel
  · rw [hlisted]
    decide +kernel

end LlmCache.Store.RedisKeys
