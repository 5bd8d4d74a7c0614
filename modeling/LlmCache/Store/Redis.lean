import LlmCache.Lib.OrderedDict
import LlmCache.Lib.Strings
import LlmCache.Store.Base

/-!
# Remote store backed by Redis

The client is a map from names to values with an optional expiry, with the
semantics of `set`, `persist` and `expire`.  The payload framing and the
pattern matching of `SCAN` are parameters: they come with the client.
-/

namespace LlmCache.Store

open Errors Lib Payload LlmCache.Types

/-- What the backend needs besides the map: `pack_payload`, `unpack_payload`
and the match of a name against a `SCAN` pattern. -/
structure RedisCodec where
  pack : KVPayload → Except Raised (List UInt8)
  unpack : List UInt8 → Except Raised KVPayload
  matchesPattern : String → String → Bool

/-- A stored value and the seconds after which it expires, if it does. -/
structure RedisEntry where
  value : List UInt8
  expiry : Option Int
deriving DecidableEq

/-- The server as its clients see it. -/
abbrev RedisClient := OrderedDict String RedisEntry

namespace RedisClient

/-- `set(name, value, ex=ex)`; an old expiry does not survive. -/
def set (client : RedisClient) (name : String) (value : List UInt8) (ex : Option Int) :
    Except Raised Unit × RedisClient :=
  match ex with
  | none => (.ok (), OrderedDict.setItem client name ⟨value, none⟩)
  | some seconds =>
      if seconds ≤ 0 then
        (.error (.responseError "invalid expire time in 'set' command"), client)
      else (.ok (), OrderedDict.setItem client name ⟨value, some seconds⟩)

def persist (client : RedisClient) (name : String) : RedisClient :=
  match client.lookup name with
  | none => client
  | some entry => OrderedDict.setItem client name { entry with expiry := none }

/-- `expire(name, seconds)`; a time that is not positive deletes the name. -/
def expire (client : RedisClient) (name : String) (seconds : Int) : RedisClient :=
  match client.lookup name with
  | none => client
  | some entry =>
      if seconds ≤ 0 then client.erase name
      else OrderedDict.setItem client name { entry with expiry := some seconds }

theorem lookup_set {client : RedisClient} {name : String} {value : List UInt8} {ex : Option Int}
    (h : (set client name value ex).1 = .ok ()) (n : String) :
    (set client name value ex).2.lookup n =
      if n = name then some ⟨value, ex⟩ else client.lookup n := by
  unfold set at h ⊢
  cases ex with
  | none => exact OrderedDict.lookup_setItem ..
  | some seconds =>
      by_cases hsec : seconds ≤ 0
      · simp [hsec] at h
      · simp only [if_neg hsec]
        exact OrderedDict.lookup_setItem ..

theorem set_of_error {client : RedisClient} {name : String} {value : List UInt8}
    {ex : Option Int} {err : Raised} (h : (set client name value ex).1 = .error err) :
    (set client name value ex).2 = client := by
  unfold set at h ⊢
  cases ex with
  | none => cases h
  | some seconds =>
      by_cases hsec : seconds ≤ 0
      · simp only [if_pos hsec]
      · simp [hsec] at h

theorem isSome_of_error {client : RedisClient} {name : String} {value : List UInt8}
    {ex : Option Int} {err : Raised} (h : (set client name value ex).1 = .error err) :
    ex.isSome := by
  cases ex with
  | none => cases h
  | some seconds => rfl

theorem lookup_persist (client : RedisClient) (name n : String) :
    (persist client name).lookup n =
      if n = name then (client.lookup name).map ({ · with expiry := none })
      else client.lookup n := by
  unfold persist
  cases hname : client.lookup name with
  | none =>
      split_ifs with hn
      · rw [hn, hname]
        rfl
      · rfl
  | some entry => simp

theorem lookup_expire_of_ne (client : RedisClient) {name n : String} (hn : n ≠ name)
    (seconds : Int) : (expire client name seconds).lookup n = client.lookup n := by
  unfold expire
  cases client.lookup name with
  | none => rfl
  | some entry =>
      simp only
      split_ifs
      · exact AList.lookup_erase_ne hn
      · rw [OrderedDict.lookup_setItem, if_neg hn]

theorem lookup_expire (client : RedisClient) (name n : String) {seconds : Int}
    (hseconds : 0 < seconds) :
    (expire client name seconds).lookup n =
      if n = name then (client.lookup name).map ({ · with expiry := some seconds })
      else client.lookup n := by
  unfold expire
  cases hname : client.lookup name with
  | none =>
      by_cases hn : n = name
      · rw [if_pos hn, hn, hname]
        rfl
      · rw [if_neg hn]
  | some entry =>
      simp only [if_neg (not_le.mpr hseconds)]
      exact OrderedDict.lookup_setItem ..

end RedisClient

/-! ## The backend -/

structure RedisBackend (codec : RedisCodec) where
  client : RedisClient := ∅
  «namespace» : String := "llmcache"
  keyTtl : Option Int := none

namespace RedisBackend

variable {codec : RedisCodec}

/-- `f"{self.namespace}:{key.cache_id}:{key.worker_id}:{key.chunk_index}"`. -/
def name (s : RedisBackend codec) (key : ChunkKey) : String :=
  s.«namespace» ++ ":" ++ key.cacheId ++ ":" ++ toString key.workerId ++ ":" ++
    toString key.chunkIndex

/-- `_parse(name)`: the key a name encodes, if it encodes one. -/
def parse (s : RedisBackend codec) (name : String) : Option ChunkKey :=
  let header := (s.«namespace» ++ ":").toList
  if ¬header.isPrefixOf name.toList then none
  else do
    let (rest, chunk) ← splitLast ':' (name.toList.drop header.length)
    let (cacheId, worker) ← splitLast ':' rest
    let chunkIndex ← pyInt chunk
    let workerId ← pyInt worker
    return ⟨String.ofList cacheId, chunkIndex, workerId⟩

def put (s : RedisBackend codec) (key : ChunkKey) (obj : KVPayload) (pin : Bool) :
    Except Raised Unit × RedisBackend codec :=
  match codec.pack obj with
  | .error err => (.error err, s)
  | .ok blob =>
      let ex := if pin then none else s.keyTtl
      match RedisClient.set s.client (s.name key) blob ex with
      | (.error err, client) => (.error err, { s with client := client })
      | (.ok (), client) =>
          if pin then (.ok (), { s with client := RedisClient.persist client (s.name key) })
          else (.ok (), { s with client := client })

def get (s : RedisBackend codec) (key : ChunkKey) : Except Raised (Option KVPayload) :=
  match s.client.lookup (s.name key) with
  | none => .ok none
  | some entry => (codec.unpack entry.value).map some

def contains (s : RedisBackend codec) (key : ChunkKey) : Bool :=
  s.name key ∈ s.client

def remove (s : RedisBackend codec) (key : ChunkKey) : Bool × RedisBackend codec :=
  (s.name key ∈ s.client, { s with client := s.client.erase (s.name key) })

def pin (s : RedisBackend codec) (key : ChunkKey) : RedisBackend codec :=
  { s with client := RedisClient.persist s.client (s.name key) }

def unpin (s : RedisBackend codec) (key : ChunkKey) : RedisBackend codec :=
  match s.keyTtl with
  | none => s
  | some seconds => { s with client := RedisClient.expire s.client (s.name key) seconds }

def keys (s : RedisBackend codec) : List ChunkKey :=
  (s.client.keys.filter (codec.matchesPattern (s.«namespace» ++ ":*"))).filterMap s.parse

instance : StorageBackend (RedisBackend codec) where
  put := put
  get s key := (s.get key, s)
  contains := contains
  remove := remove
  pin := pin
  unpin := unpin
  keys := keys

/-! ## Distinct keys have distinct names -/

theorem colon_notMem_int (n : Int) : ':' ∉ (toString n).toList :=
  notMem_toString_int (by decide) (by decide) n

theorem toList_name (s : RedisBackend codec) (key : ChunkKey) :
    (s.name key).toList =
      ((s.«namespace».toList ++ ':' :: key.cacheId.toList) ++ ':' ::
        (toString key.workerId).toList) ++ ':' :: (toString key.chunkIndex).toList := by
  simp [name]

theorem name_congr {s s' : RedisBackend codec} (h : s'.«namespace» = s.«namespace») :
    s'.name = s.name := by
  funext key
  rw [name, name, h]

theorem name_inj (s : RedisBackend codec) {key k : ChunkKey} (h : s.name key = s.name k) :
    key = k := by
  have hchars := congrArg String.toList h
  rw [toList_name, toList_name] at hchars
  have hchunk := congrArg (splitLast ':') hchars
  rw [splitLast_append _ (colon_notMem_int _), splitLast_append _ (colon_notMem_int _)] at hchunk
  obtain ⟨hrest, hindex⟩ := Prod.mk.inj (Option.some.inj hchunk)
  have hworker := congrArg (splitLast ':') hrest
  rw [splitLast_append _ (colon_notMem_int _), splitLast_append _ (colon_notMem_int _)] at hworker
  obtain ⟨hid, hworkers⟩ := Prod.mk.inj (Option.some.inj hworker)
  have hcache : key.cacheId = k.cacheId := by
    apply String.toList_injective
    exact (List.cons.inj (List.append_cancel_left hid)).2
  obtain ⟨cacheId, chunkIndex, workerId⟩ := key
  obtain ⟨cacheId', chunkIndex', workerId'⟩ := k
  simp only at hcache hindex hworkers
  rw [hcache, toString_int_inj hindex, toString_int_inj hworkers]

theorem toList_name_split (s : RedisBackend codec) (key : ChunkKey) :
    (s.name key).toList = (s.«namespace» ++ ":").toList ++
      ((key.cacheId.toList ++ ':' :: (toString key.workerId).toList) ++
        ':' :: (toString key.chunkIndex).toList) := by
  rw [toList_name]
  simp

theorem prefix_name (s : RedisBackend codec) (key : ChunkKey) :
    (s.«namespace» ++ ":").toList <+: (s.name key).toList := by
  rw [toList_name_split]
  exact List.prefix_append ..

theorem parse_name (s : RedisBackend codec) (key : ChunkKey) :
    s.parse (s.name key) = some key := by
  rw [parse]
  simp only [List.isPrefixOf_iff_prefix.mpr (s.prefix_name key), not_true_eq_false, if_false]
  rw [toList_name_split, List.drop_left, splitLast_append _ (colon_notMem_int _)]
  simp only [bind, Option.bind]
  rw [splitLast_append _ (colon_notMem_int _)]
  simp only [pyInt_toString, String.ofList_toList]
  rfl

/-! ## What is stored under a key -/

/-- The value and expiry stored under a key's name. -/
def entry (s : RedisBackend codec) (key : ChunkKey) : Option RedisEntry :=
  s.client.lookup (s.name key)

/-- The key is stored and does not expire. -/
def Durable (s : RedisBackend codec) (key : ChunkKey) : Prop :=
  ∃ e, s.entry key = some e ∧ e.expiry = none

theorem Durable.of_entry_eq {s s' : RedisBackend codec} {key : ChunkKey} (h : s.Durable key)
    (hentry : s'.entry key = s.entry key) : s'.Durable key := by
  unfold Durable at h ⊢
  rwa [hentry]

theorem entry_pin (s : RedisBackend codec) (key k : ChunkKey) :
    (s.pin key).entry k =
      if k = key then (s.entry key).map ({ · with expiry := none }) else s.entry k := by
  have hlookup : (s.pin key).entry k =
      if s.name k = s.name key then (s.entry key).map ({ · with expiry := none })
      else s.entry k := RedisClient.lookup_persist ..
  rw [hlookup]
  by_cases hk : k = key
  · rw [if_pos hk, if_pos (by rw [hk])]
  · rw [if_neg hk, if_neg fun h => hk (s.name_inj h)]

instance (s : RedisBackend codec) (key : ChunkKey) : Decidable (s.Durable key) :=
  decidable_of_iff ((s.entry key).map RedisEntry.expiry = some none) (by simp [Durable])

theorem contains_eq (s : RedisBackend codec) (key : ChunkKey) :
    s.contains key = (s.entry key).isSome := by
  rw [contains, entry, Bool.eq_iff_iff, decide_eq_true_iff, AList.lookup_isSome]

/-- How a put ends: the backend is as it was, since the object cannot be framed or
the expiry is refused, or has the framed object under the key's name. -/
theorem put_client_cases (s : RedisBackend codec) (key : ChunkKey) (obj : KVPayload) (pin : Bool) :
    (∃ err, s.put key obj pin = (.error err, s) ∧
        (codec.pack obj = .error err ∨ (if pin then none else s.keyTtl).isSome)) ∨
      ∃ blob client, codec.pack obj = .ok blob ∧
        s.put key obj pin = (.ok (), { s with client := client }) ∧
        ∀ name, client.lookup name =
          if name = s.name key then some ⟨blob, if pin then none else s.keyTtl⟩
          else s.client.lookup name := by
  unfold put
  cases hpack : codec.pack obj with
  | error err => exact .inl ⟨err, rfl, .inl rfl⟩
  | ok blob =>
      have hset := @RedisClient.lookup_set s.client (s.name key) blob
        (if pin then none else s.keyTtl)
      have herr := @RedisClient.set_of_error s.client (s.name key) blob
        (if pin then none else s.keyTtl)
      have hexpiry := @RedisClient.isSome_of_error s.client (s.name key) blob
        (if pin then none else s.keyTtl)
      simp only
      generalize RedisClient.set s.client (s.name key) blob (if pin then none else s.keyTtl) = out
        at hset herr hexpiry ⊢
      rcases out with ⟨err | _, client⟩
      · obtain rfl := herr rfl
        exact .inl ⟨err, rfl, .inr (hexpiry rfl)⟩
      · right
        cases pin with
        | false => exact ⟨blob, client, rfl, rfl, hset rfl⟩
        | true =>
            -- `persist` finds the entry without an expiry already
            refine ⟨blob, RedisClient.persist client (s.name key), rfl, rfl, fun name => ?_⟩
            rw [RedisClient.lookup_persist, hset rfl, hset rfl, if_pos rfl]
            by_cases hname : name = s.name key
            · rw [if_pos hname, if_pos hname]
              rfl
            · rw [if_neg hname, if_neg hname]

theorem entry_of_lookup {s : RedisBackend codec} {key : ChunkKey} {client : RedisClient}
    {e : RedisEntry}
    (h : ∀ name, client.lookup name = if name = s.name key then some e else s.client.lookup name) :
    { s with client := client : RedisBackend codec }.entry =
      Function.update s.entry key (some e) := by
  funext k
  refine (h (s.name k)).trans ?_
  rw [Function.update_apply]
  by_cases hk : k = key
  · rw [if_pos hk, if_pos (by rw [hk])]
  · rw [if_neg hk, if_neg fun h => hk (s.name_inj h)]
    rfl

theorem put_cases (s : RedisBackend codec) (key : ChunkKey) (obj : KVPayload) (pin : Bool) :
    (s.put key obj pin).2.keyTtl = s.keyTtl ∧
      ((∃ err, (s.put key obj pin).1 = .error err ∧ (s.put key obj pin).2.entry = s.entry) ∨
        ∃ blob, (s.put key obj pin).1 = .ok () ∧ (s.put key obj pin).2.entry =
          Function.update s.entry key (some ⟨blob, if pin then none else s.keyTtl⟩)) := by
  rcases s.put_client_cases key obj pin with ⟨err, hput, _⟩ | ⟨blob, client, _, hput, hlookup⟩
  · rw [hput]
    exact ⟨rfl, .inl ⟨err, rfl, rfl⟩⟩
  · rw [hput]
    exact ⟨rfl, .inr ⟨blob, rfl, entry_of_lookup hlookup⟩⟩

theorem entry_put_other (s : RedisBackend codec) {key k : ChunkKey} (obj : KVPayload)
    (pin : Bool) (hk : k ≠ key) : (s.put key obj pin).2.entry k = s.entry k := by
  rcases (put_cases s key obj pin).2 with ⟨_, _, hentry⟩ | ⟨blob, _, hentry⟩
  · rw [hentry]
  · rw [hentry, Function.update_of_ne hk]

theorem durable_put_pin {s : RedisBackend codec} {key : ChunkKey} {obj : KVPayload}
    (hok : (s.put key obj true).1 = .ok ()) : (s.put key obj true).2.Durable key := by
  rcases (put_cases s key obj true).2 with ⟨err, herr, _⟩ | ⟨blob, _, hentry⟩
  · rw [hok] at herr
    cases herr
  · exact ⟨_, by rw [hentry, Function.update_self], rfl⟩

theorem durable_put_of_no_ttl {s : RedisBackend codec} (httl : s.keyTtl = none) {k : ChunkKey}
    (hk : s.Durable k) (key : ChunkKey) (obj : KVPayload) (pin : Bool) :
    (s.put key obj pin).2.Durable k := by
  unfold Durable at hk ⊢
  rcases (put_cases s key obj pin).2 with ⟨_, _, hentry⟩ | ⟨blob, _, hentry⟩
  · rw [hentry]
    exact hk
  · rw [hentry, Function.update_apply]
    by_cases h : k = key
    · exact ⟨_, if_pos h, by simp [httl]⟩
    · rw [if_neg h]
      exact hk

theorem durable_pin_of_durable {s : RedisBackend codec} {k : ChunkKey} (hk : s.Durable k)
    (key : ChunkKey) : (s.pin key).Durable k := by
  unfold Durable at hk ⊢
  rw [entry_pin]
  split_ifs with h
  · subst h
    obtain ⟨e, he, _⟩ := hk
    exact ⟨_, by rw [he]; rfl, rfl⟩
  · exact hk

theorem durable_pin_of_contains {s : RedisBackend codec} {key : ChunkKey}
    (hkey : s.contains key = true) : (s.pin key).Durable key := by
  rw [contains_eq, Option.isSome_iff_exists] at hkey
  obtain ⟨e, he⟩ := hkey
  exact ⟨_, by rw [entry_pin, if_pos rfl, he]; rfl, rfl⟩

theorem entry_unpin_other (s : RedisBackend codec) {key k : ChunkKey} (hk : k ≠ key) :
    (s.unpin key).entry k = s.entry k := by
  unfold unpin
  cases s.keyTtl with
  | none => rfl
  | some seconds =>
      exact RedisClient.lookup_expire_of_ne s.client (fun h => hk (s.name_inj h)) seconds

theorem entry_remove_other (s : RedisBackend codec) {key k : ChunkKey} (hk : k ≠ key) :
    (s.remove key).2.entry k = s.entry k :=
  AList.lookup_erase_ne fun h => hk (s.name_inj h)

/-- What a put of an object that is framed stores, with a default expiry that
the server accepts. -/
theorem put_of_pack {s : RedisBackend codec} (key : ChunkKey) {obj : KVPayload}
    {blob : List UInt8} (hpack : codec.pack obj = .ok blob) {ttl : Int}
    (httl : s.keyTtl = some ttl) (hpos : 0 < ttl) (pin : Bool) :
    (s.put key obj pin).1 = .ok () ∧
      ∀ n, (s.put key obj pin).2.client.lookup n =
        if n = s.name key then some ⟨blob, if pin then none else some ttl⟩
        else s.client.lookup n := by
  unfold put
  rw [hpack, httl]
  cases pin with
  | true =>
      refine ⟨rfl, fun n => ?_⟩
      refine (RedisClient.lookup_persist _ _ n).trans ?_
      rw [OrderedDict.lookup_setItem, OrderedDict.lookup_setItem, if_pos rfl]
      by_cases hn : n = s.name key
      · rw [if_pos hn, if_pos hn]
        rfl
      · rw [if_neg hn, if_neg hn, if_neg hn]
  | false =>
      simp only [RedisClient.set, Bool.false_eq_true, if_false, if_neg (not_le.mpr hpos)]
      exact ⟨trivial, fun n => OrderedDict.lookup_setItem ..⟩

theorem put_of_no_ttl {s : RedisBackend codec} (key : ChunkKey) {obj : KVPayload}
    {blob : List UInt8} (hpack : codec.pack obj = .ok blob) (httl : s.keyTtl = none) (pin : Bool) :
    (s.put key obj pin).1 = .ok () ∧
      (s.put key obj pin).2.entry = Function.update s.entry key (some ⟨blob, none⟩) := by
  have hexpiry : (if pin then none else s.keyTtl) = none := by rw [httl, ite_self]
  rcases s.put_client_cases key obj pin with ⟨err, _, hfailed⟩ | ⟨blob', client, hblob, hput, hlookup⟩
  · rw [hpack, hexpiry] at hfailed
    simp at hfailed
  · obtain rfl := Except.ok.inj (hpack.symm.trans hblob)
    rw [hexpiry] at hlookup
    rw [hput]
    exact ⟨rfl, entry_of_lookup hlookup⟩

theorem put_of_pack_error (s : RedisBackend codec) (key : ChunkKey) {obj : KVPayload}
    {err : Raised} (hpack : codec.pack obj = .error err) (pin : Bool) :
    s.put key obj pin = (.error err, s) := by
  rw [put, hpack]

theorem namespace_put (s : RedisBackend codec) (key : ChunkKey) (obj : KVPayload) (pin : Bool) :
    (s.put key obj pin).2.«namespace» = s.«namespace» ∧
      (s.put key obj pin).2.keyTtl = s.keyTtl := by
  unfold put
  cases codec.pack obj with
  | error err => exact ⟨rfl, rfl⟩
  | ok blob =>
      simp only
      rcases RedisClient.set s.client (s.name key) blob (if pin then none else s.keyTtl) with
        ⟨err | _, client⟩
      · exact ⟨rfl, rfl⟩
      · cases pin <;> exact ⟨rfl, rfl⟩

end RedisBackend

end LlmCache.Store
