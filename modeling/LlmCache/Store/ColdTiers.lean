import LlmCache.Store.Interchange
import LlmCache.Store.TieredSimulation

/-!
# Disk and Redis as cold tiers

Each stands for a lossless store: the disk for keys with plain ids, a Redis
backend without a default expiry for all keys, both for objects that can be
framed.
-/

namespace LlmCache.Store.ColdTiers

open Errors Lib Payload LlmCache.Types KeyedStore
open DiskChunks (SafeId Framed Tidy)
open Interchange (Admissible Fits diskCell disk_cellular typed)
open TieredSimulation (SameHot Shows IsStorageFull)

/-! ## Disk -/

/-- A disk backend behind the interface of the stores.  What the interface has
no place for is dropped: which paths `contains` asked for, and the exception of
a `remove` that finds a directory where a chunk should be. -/
structure DiskStore (json : JsonText) where
  backend : DiskBackend

namespace DiskStore

variable {json : JsonText}

def get (s : DiskStore json) (key : ChunkKey) :
    Except Raised (Option KVPayload) × DiskStore json :=
  let read := s.backend.get json key
  (read.1.bind fun
    | none => .ok none
    | some payload => (typed payload).map some, ⟨read.2⟩)

def remove (s : DiskStore json) (key : ChunkKey) : Bool × DiskStore json :=
  ((s.backend.remove key).1.toOption.getD false, ⟨(s.backend.remove key).2⟩)

instance : StorageBackend (DiskStore json) where
  put s key obj pin := ((s.backend.put json key obj pin).1, ⟨(s.backend.put json key obj pin).2⟩)
  get := get
  contains s key := (s.backend.contains key).1
  remove := remove
  pin s key := ⟨s.backend.pin key⟩
  unpin s key := ⟨s.backend.unpin key⟩
  keys s := s.backend.keys

end DiskStore

/-- The key is of a cache with a plain id. -/
def SafeKey (key : ChunkKey) : Prop :=
  SafeId key.cacheId

/-- The object can be framed, and read back from its frame. -/
structure Storable (json : JsonText) (obj : KVPayload) : Prop where
  metadata : (Json.obj obj.metadata).WellFormed
  fits : Fits json obj

section Disk

variable {json : JsonText} {τ : Type} [LosslessBackend τ]

/-- The chunks under the root are the content of the other store. -/
structure OnDisk (s : DiskStore json) (t : τ) : Prop where
  tidy : Tidy json s.backend
  content : ∀ key, SafeKey key → (diskCell json s.backend key).held =
    (LosslessStore.view t key).map KVPayload.fields

variable {s : DiskStore json} {t : τ} {key : ChunkKey}

theorem OnDisk.get_eq (hjson : json.Inverts) (h : OnDisk s t) (hsafe : SafeKey key) :
    (s.get key).1 = .ok (LosslessStore.view t key) := by
  have hget := Interchange.get_of_tidy hjson h.tidy hsafe
  rw [h.content key hsafe] at hget
  simp only [DiskStore.get, hget]
  cases LosslessStore.view t key <;> rfl

theorem OnDisk.storable (hjson : json.Inverts) (h : OnDisk s t) (hsafe : SafeKey key)
    {obj : KVPayload} (hview : LosslessStore.view t key = some obj) : Storable json obj := by
  have hcontent := h.content key hsafe
  rw [hview] at hcontent
  rcases Interchange.diskCell_held hjson h.tidy hsafe with
    ⟨_, hnone⟩ | ⟨obj', blob, hframed, _, hheld⟩
  · rw [hcontent] at hnone
    cases hnone
  · rw [hheld] at hcontent
    obtain rfl := KVPayload.fields_injective (Option.some.inj hcontent)
    refine ⟨hframed.1, ?_⟩
    rcases packPayload_cases json obj' with ⟨hfits, _⟩ | ⟨_, err, herr⟩
    · exact hfits
    · rw [hframed.2] at herr
      cases herr

theorem OnDisk.isSome_eq (h : OnDisk s t) (hsafe : SafeKey key) :
    (diskCell json s.backend key).held.isSome = (LosslessStore.view t key).isSome := by
  rw [h.content key hsafe, Option.isSome_map]

/-- A call about a safe key that changes the other store alike. -/
theorem OnDisk.of_cellular (hjson : json.Inverts) (h : OnDisk s t) {op : Op ChunkKey KVPayload}
    (hop : Admissible op) (hkey : op.key = some key) {t' : τ}
    (hself : ((diskCell json s.backend key).next json Interchange.diskPolicy op).held =
      (LosslessStore.view t' key).map KVPayload.fields)
    (hother : ∀ k, k ≠ key → LosslessStore.view t' k = LosslessStore.view t k) :
    OnDisk (⟨(s.backend.step json op).2⟩ : DiskStore json) t' where
  tidy := (disk_cellular hjson).keeps s.backend op h.tidy hop
  content := by
    intro k hsafe
    by_cases hk : k = key
    · subst hk
      rw [(disk_cellular hjson).self s.backend op k h.tidy hop hkey]
      exact hself
    · rw [(disk_cellular hjson).other s.backend op k h.tidy hop hsafe, h.content k hsafe,
        hother k hk]
      rintro hsame
      exact hk (Option.some.inj (hsame.symm.trans hkey))

theorem admissible_of_safe (op : Op ChunkKey KVPayload) (hsafe : SafeKey key)
    (hkey : op.key = some key) (hput : ∀ k obj pin, op ≠ .put k obj pin) : Admissible op where
  safe := ⟨key, hkey, hsafe⟩
  metadata := fun k obj pin hop => absurd hop (hput k obj pin)

theorem admissible_put (hsafe : SafeKey key) {obj : KVPayload} (hobj : Storable json obj)
    (pin : Bool) : Admissible (.put key obj pin) where
  safe := ⟨key, rfl, hsafe⟩
  metadata := by
    rintro k o p ⟨⟩
    exact hobj.metadata

theorem OnDisk.of_read (hjson : json.Inverts) (h : OnDisk s t) {op : Op ChunkKey KVPayload}
    (hop : Admissible op) (hkey : op.key = some key)
    (hsame : ((diskCell json s.backend key).next json Interchange.diskPolicy op).held =
      (diskCell json s.backend key).held) {t' : τ}
    (ht : LosslessStore.view t' = LosslessStore.view t) :
    OnDisk (⟨(s.backend.step json op).2⟩ : DiskStore json) t' := by
  obtain ⟨k, hk, hsafe⟩ := hop.safe
  obtain rfl := Option.some.inj (hk.symm.trans hkey)
  refine h.of_cellular hjson hop hkey ?_ fun k _ => congrFun ht k
  rw [hsame, ht]
  exact h.content k hsafe

theorem OnDisk.put (hjson : json.Inverts) (h : OnDisk s t) (hsafe : SafeKey key)
    {obj : KVPayload} (hobj : Storable json obj) (pin : Bool) :
    (KeyedStore.put s key obj pin).1 = .ok () ∧
      OnDisk (KeyedStore.put s key obj pin).2 (KeyedStore.put t key obj pin).2 := by
  have hview := LosslessStore.view_put t key obj pin
  rcases packPayload_cases json obj with ⟨_, blob, hpack⟩ | ⟨hlong, _⟩
  · obtain ⟨hok, _⟩ := (DiskChunks.put_spec h.tidy hsafe obj pin).1 blob hpack
    refine ⟨hok, h.of_cellular hjson (admissible_put hsafe hobj pin) rfl ?_ fun k hk => ?_⟩
    · have hframes : ¬(Interchange.diskPolicy.frames = true ∧ ¬Fits json obj) :=
        fun hlong => hlong.2 hobj.fits
      rw [Interchange.Cell.next, if_neg hframes, hview, Function.update_self]
      rfl
    · rw [hview, Function.update_of_ne hk]
  · exact absurd hobj.fits (not_lt.mpr hlong)

theorem OnDisk.remove (hjson : json.Inverts) (h : OnDisk s t) (hsafe : SafeKey key) :
    (KeyedStore.remove s key).1 = (KeyedStore.remove t key).1 ∧
      OnDisk (KeyedStore.remove s key).2 (KeyedStore.remove t key).2 := by
  have hop : Admissible (.remove key) := admissible_of_safe _ hsafe rfl (by simp)
  have hview := LosslessStore.view_remove t key
  have hanswer := DiskChunks.remove_spec h.tidy hsafe
  constructor
  · rw [LosslessStore.remove_eq, ← h.isSome_eq hsafe, Interchange.isSome_held hjson h.tidy hsafe]
    simp only [KeyedStore.remove, DiskStore.remove, hanswer.1, Except.toOption, Option.getD_some]
  · refine h.of_cellular hjson hop rfl ?_ fun k hk => ?_
    · rw [hview, Function.update_self]
      rfl
    · rw [hview, Function.update_of_ne hk]

/-- A tidy disk stands for a lossless store. -/
theorem standsFor_disk (τ : Type) [LosslessBackend τ] (hjson : json.Inverts) :
    StandsFor (DiskStore json) τ (fun _ => False) SafeKey (Storable json) OnDisk where
  put k o pin := fun hrel hk ho => by
    obtain ⟨hok, hnext⟩ := hrel.put hjson hk ho pin
    exact .of_eq (hok.trans (LosslessStore.put_ok ..).symm) hnext
  get k := fun hrel hk => by
    refine .of_eq ((hrel.get_eq hjson hk).trans (LosslessStore.get_ok ..).symm) ?_
    exact hrel.of_read hjson (admissible_of_safe (.get k) hk rfl (by simp)) rfl rfl
      (LosslessStore.view_get ..)
  got k o := fun hrel hk hget => by
    have hsome := (hrel.get_eq hjson hk).symm.trans hget
    exact hrel.storable hjson hk (Except.ok.inj hsome)
  contains k hrel hk := by
    rw [LosslessStore.contains_eq, ← hrel.isSome_eq hk, Interchange.isSome_held hjson hrel.tidy hk]
    exact (DiskChunks.reads_spec hjson hrel.tidy hk).1
  remove k := fun hrel hk => hrel.remove hjson hk
  pin k := fun hrel hk => hrel.of_read hjson (admissible_of_safe (.pin k) hk rfl (by simp))
    rfl rfl (LosslessStore.view_pin ..)
  unpin k := fun hrel hk => hrel.of_read hjson (admissible_of_safe (.unpin k) hk rfl (by simp))
    rfl rfl (LosslessStore.view_unpin ..)

end Disk

section Content

variable {json : JsonText}

/-- The payload that the file of a key frames. -/
def DiskStore.held (s : DiskStore json) (key : ChunkKey) : Option KVPayload :=
  (diskCell json s.backend key).held.bind fun p => (typed p).toOption

theorem held_of_tidy (hjson : json.Inverts) {s : DiskStore json} (ht : Tidy json s.backend)
    {key : ChunkKey} (hsafe : SafeKey key) :
    (diskCell json s.backend key).held = (s.held key).map KVPayload.fields := by
  unfold DiskStore.held
  rcases Interchange.diskCell_held hjson ht hsafe with ⟨_, hnone⟩ | ⟨obj, _, _, _, hheld⟩
  · rw [hnone]
    rfl
  · rw [hheld]
    rfl

theorem mem_keys_of_held (hjson : json.Inverts) {s : DiskStore json} (ht : Tidy json s.backend)
    {key : ChunkKey} (hsafe : SafeKey key) (hheld : (s.held key).isSome) :
    key ∈ s.backend.keys := by
  rw [DiskChunks.mem_keys_iff ht]
  refine ⟨hsafe, ?_⟩
  rw [← Interchange.isSome_held hjson ht hsafe, held_of_tidy hjson ht hsafe, Option.isSome_map]
  exact hheld

open Classical in
/-- What a tidy disk holds under safe keys. -/
noncomputable def diskContent (hjson : json.Inverts) (s : DiskStore json)
    (ht : Tidy json s.backend) : Content ChunkKey KVPayload Raised :=
  .ofKeys (fun key => if SafeKey key then s.held key else none) s.backend.keys <| by
    intro key hsome
    split_ifs at hsome with hsafe
    · exact mem_keys_of_held hjson ht hsafe hsome
    · cases hsome

theorem onDisk_content (hjson : json.Inverts) (s : DiskStore json) (ht : Tidy json s.backend) :
    OnDisk s (diskContent hjson s ht) where
  tidy := ht
  content := by
    intro key hsafe
    rw [held_of_tidy hjson ht hsafe]
    exact congrArg (Option.map _) (if_pos hsafe).symm

end Content

/-! ## Memory -/

section Memory

variable {τ : Type} [LosslessBackend τ]

/-- A CPU backend without a capacity has the content of the other store. -/
def InMemory (key : ChunkKey → Prop) (obj : KVPayload → Prop) (s : CPUBackend) (t : τ) : Prop :=
  ∃ u : UnboundedCPU, s = u.1 ∧ LosslessStore.SameContent key obj u t

theorem passes_val : Passes (Subtype.val : UnboundedCPU → CPUBackend) where
  put _ _ _ _ := rfl
  get _ _ := rfl
  contains _ _ := rfl
  remove _ _ := rfl
  pin _ _ := rfl
  unpin _ _ := rfl

theorem standsFor_cpu (τ : Type) [LosslessBackend τ] (key : ChunkKey → Prop)
    (obj : KVPayload → Prop) :
    StandsFor CPUBackend τ (fun _ => False) key obj (InMemory key obj) :=
  (LosslessStore.standsFor UnboundedCPU τ key obj).along passes_val

theorem inMemory_empty (key : ChunkKey → Prop) (obj : KVPayload → Prop) :
    InMemory key obj {} (Content.empty ChunkKey KVPayload Raised) :=
  ⟨.empty, rfl, rfl, fun _ _ _ hview => by cases hview⟩

end Memory

/-! ## Redis -/

section Redis

variable {codec : RedisCodec} {obj : KVPayload → Prop} {τ : Type} [LosslessBackend τ]

/-- The framing takes the admitted objects and gives them back. -/
def Reads (codec : RedisCodec) (obj : KVPayload → Prop) : Prop :=
  ∀ o, obj o → ∃ blob, codec.pack o = .ok blob ∧ codec.unpack blob = .ok o

/-- An entry that does not expire, and the object that it is the frame of. -/
inductive Frames (codec : RedisCodec) (obj : KVPayload → Prop) :
    Option RedisEntry → Option KVPayload → Prop
  | absent : Frames codec obj none none
  | stored (value : List UInt8) (o : KVPayload) (hobj : obj o)
      (hunpack : codec.unpack value = .ok o) : Frames codec obj (some ⟨value, none⟩) (some o)

theorem Frames.cases {e : Option RedisEntry} {o : Option KVPayload} (h : Frames codec obj e o) :
    e = none ∧ o = none ∨ ∃ entry p, e = some entry ∧ o = some p ∧ obj p ∧
      codec.unpack entry.value = .ok p ∧ entry.expiry = none := by
  cases h with
  | absent => exact .inl ⟨rfl, rfl⟩
  | stored value o hobj hunpack => exact .inr ⟨⟨value, none⟩, o, rfl, rfl, hobj, hunpack, rfl⟩

/-- No put gives an entry an expiry, and the server holds the framed content of
the other store. -/
structure OnServer (obj : KVPayload → Prop) (s : RedisBackend codec) (t : τ) : Prop where
  keyTtl : s.keyTtl = none
  frames : ∀ key, Frames codec obj (s.entry key) (LosslessStore.view t key)

variable {s s' : RedisBackend codec} {t t' : τ} {key : ChunkKey}

omit [LosslessBackend τ] in
theorem get_of_no_entry {s : RedisBackend codec} {key : ChunkKey} (h : s.entry key = none) :
    s.get key = .ok none := by
  unfold RedisBackend.entry at h
  simp only [RedisBackend.get, h]

omit [LosslessBackend τ] in
theorem get_of_entry {s : RedisBackend codec} {key : ChunkKey} {e : RedisEntry} {o : KVPayload}
    (h : s.entry key = some e) (hunpack : codec.unpack e.value = .ok o) :
    s.get key = .ok (some o) := by
  unfold RedisBackend.entry at h
  simp only [RedisBackend.get, h, hunpack, Except.map]

theorem OnServer.get_eq (h : OnServer obj s t) (key : ChunkKey) :
    s.get key = .ok (LosslessStore.view t key) := by
  rcases (h.frames key).cases with ⟨hentry, hview⟩ | ⟨e, o, hentry, hview, _, hunpack, _⟩
  · rw [get_of_no_entry hentry, hview]
  · rw [get_of_entry hentry hunpack, hview]

theorem OnServer.isSome_eq (h : OnServer obj s t) (key : ChunkKey) :
    (s.entry key).isSome = (LosslessStore.view t key).isSome := by
  rcases (h.frames key).cases with ⟨hentry, hview⟩ | ⟨e, o, hentry, hview, _⟩
  · rw [hentry, hview]
    rfl
  · rw [hentry, hview]
    rfl

theorem OnServer.update (h : OnServer obj s t) (httl : s'.keyTtl = s.keyTtl)
    {e : Option RedisEntry} {o : Option KVPayload} (hframes : Frames codec obj e o)
    (hs : s'.entry = Function.update s.entry key e)
    (ht : LosslessStore.view t' = Function.update (LosslessStore.view t) key o) :
    OnServer obj s' t' where
  keyTtl := httl.trans h.keyTtl
  frames := by
    intro k
    rw [hs, ht, Function.update_apply, Function.update_apply]
    split_ifs
    · exact hframes
    · exact h.frames k

theorem OnServer.put (hreads : Reads codec obj) (h : OnServer obj s t) (key : ChunkKey)
    {o : KVPayload} (ho : obj o) (pin : Bool) :
    (s.put key o pin).1 = .ok () ∧
      OnServer obj (s.put key o pin).2 (KeyedStore.put t key o pin).2 := by
  obtain ⟨blob, hpack, hunpack⟩ := hreads o ho
  obtain ⟨hok, hentry⟩ := RedisBackend.put_of_no_ttl key hpack h.keyTtl pin
  refine ⟨hok, ?_⟩
  exact h.update (s.namespace_put key o pin).2 (.stored blob o ho hunpack) hentry
    (LosslessStore.view_put t key o pin)

theorem OnServer.remove (h : OnServer obj s t) (key : ChunkKey) :
    (s.remove key).1 = (KeyedStore.remove t key).1 ∧
      OnServer obj (s.remove key).2 (KeyedStore.remove t key).2 := by
  constructor
  · rw [LosslessStore.remove_eq, ← h.isSome_eq, ← RedisBackend.contains_eq]
    rfl
  · refine h.update rfl .absent ?_ (LosslessStore.view_remove t key)
    funext k
    rw [Function.update_apply]
    split_ifs with hk
    · rw [hk]
      exact AList.lookup_erase _ _
    · exact RedisBackend.entry_remove_other s hk

theorem OnServer.pin (h : OnServer obj s t) (key : ChunkKey) :
    OnServer obj (s.pin key) (KeyedStore.pin t key) where
  keyTtl := h.keyTtl
  frames := by
    intro k
    rw [LosslessStore.view_pin, RedisBackend.entry_pin]
    split_ifs with hk
    · rw [hk]
      rcases (h.frames key).cases with ⟨hentry, hview⟩ | ⟨e, o, hentry, hview, ho, hunpack, _⟩
      · rw [hentry, hview]
        exact .absent
      · rw [hentry, hview]
        exact .stored _ o ho hunpack
    · exact h.frames k

theorem OnServer.unpin (h : OnServer obj s t) (key : ChunkKey) :
    OnServer obj (s.unpin key) (KeyedStore.unpin t key) := by
  have hsame : s.unpin key = s := by rw [RedisBackend.unpin, h.keyTtl]
  rw [hsame]
  refine ⟨h.keyTtl, fun k => ?_⟩
  rw [LosslessStore.view_unpin]
  exact h.frames k

/-- A Redis backend without a default expiry stands for a lossless store. -/
theorem standsFor_redis (τ : Type) [LosslessBackend τ] (hreads : Reads codec obj)
    (key : ChunkKey → Prop) :
    StandsFor (RedisBackend codec) τ (fun _ => False) key obj (OnServer obj) where
  put k o pin := fun hrel _ ho => by
    obtain ⟨hok, hnext⟩ := hrel.put hreads k ho pin
    exact .of_eq (hok.trans (LosslessStore.put_ok ..).symm) hnext
  get k := fun hrel _ => by
    refine .of_eq ((hrel.get_eq k).trans (LosslessStore.get_ok ..).symm) ⟨hrel.keyTtl, fun k' => ?_⟩
    rw [LosslessStore.view_get]
    exact hrel.frames k'
  got k o := fun hrel _ hget => by
    have hview := Except.ok.inj ((hrel.get_eq k).symm.trans hget)
    rcases (hrel.frames k).cases with ⟨_, hnone⟩ | ⟨_, o', _, hsome, ho, _⟩
    · rw [hview] at hnone
      cases hnone
    · obtain rfl := Option.some.inj (hview.symm.trans hsome)
      exact ho
  contains k hrel _ := by
    rw [LosslessStore.contains_eq, ← hrel.isSome_eq, ← RedisBackend.contains_eq]
    rfl
  remove k := fun hrel _ => hrel.remove k
  pin k := fun hrel _ => hrel.pin k
  unpin k := fun hrel _ => hrel.unpin k

/-- What the server holds under names of keys does not expire and can be read. -/
def Readable (obj : KVPayload → Prop) (s : RedisBackend codec) : Prop :=
  ∀ key e, s.entry key = some e →
    e.expiry = none ∧ ∃ o, obj o ∧ codec.unpack e.value = .ok o

theorem isSome_get_iff (hread : Readable obj s) (key : ChunkKey) :
    (s.get key).toOption.join.isSome = (s.entry key).isSome := by
  cases hentry : s.entry key with
  | none =>
      rw [get_of_no_entry hentry]
      rfl
  | some e =>
      obtain ⟨_, o, _, hunpack⟩ := hread key e hentry
      rw [get_of_entry hentry hunpack]
      rfl

theorem mem_keys_of_entry (s : RedisBackend codec) {key : ChunkKey}
    (hentry : (s.entry key).isSome) : key ∈ s.client.keys.filterMap s.parse := by
  rw [List.mem_filterMap]
  exact ⟨s.name key, AList.mem_keys.mp (AList.lookup_isSome.mp hentry), s.parse_name key⟩

/-- What a readable server holds under names of keys. -/
def serverContent (s : RedisBackend codec) (hread : Readable obj s) :
    Content ChunkKey KVPayload Raised :=
  .ofKeys (fun key => (s.get key).toOption.join) (s.client.keys.filterMap s.parse) <| by
    intro key hsome
    rw [isSome_get_iff hread] at hsome
    exact mem_keys_of_entry s hsome

theorem onServer_content (s : RedisBackend codec) (httl : s.keyTtl = none)
    (hread : Readable obj s) : OnServer obj s (serverContent s hread) where
  keyTtl := httl
  frames := by
    intro key
    have hview : LosslessStore.view (serverContent s hread) key = (s.get key).toOption.join := rfl
    rw [hview]
    cases hentry : s.entry key with
    | none =>
        rw [get_of_no_entry hentry]
        exact .absent
    | some e =>
        obtain ⟨value, expiry⟩ := e
        obtain ⟨rfl, o, ho, hunpack⟩ := hread key _ hentry
        rw [get_of_entry hentry hunpack]
        exact .stored value o ho hunpack

end Redis

/-! ## Two tiers in place of one map -/

/-- No call of the history raised `StorageFullError`. -/
def NeverFull {ι ρ : Type} (past : List (ι × Except Raised ρ)) : Prop :=
  ∀ entry ∈ past, ∀ err, entry.2 = .error err → ¬IsStorageFull err

theorem neverFull_of_all {ι ρ : Type} {past : List (ι × Except Raised ρ)}
    (h : past.all (fun entry => entry.2.toBool) = true) : NeverFull past := by
  intro entry hentry err herr
  have hok := List.all_eq_true.mp h entry hentry
  rw [herr] at hok
  cases hok

/-- The plain map of payloads as a store. -/
abbrev Chunks : Type :=
  Content ChunkKey KVPayload Raised

section Tiers

variable {σ : Type} [StorageBackend σ] {key : ChunkKey → Prop} {obj : KVPayload → Prop}
  {R : σ → Chunks → Prop}

/-- A hot tier over a store that stands for a plain map. -/
def Tiers (key : ChunkKey → Prop) (obj : KVPayload → Prop) (R : σ → Chunks → Prop)
    (t : TieredBackend σ) (m : Chunks) : Prop :=
  ∃ u : TieredBackend Chunks, SameHot key obj R t u ∧ Shows key obj u m

theorem standsFor_tiered (h : StandsFor σ Chunks (fun _ => False) key obj R) :
    StandsFor (TieredBackend σ) Chunks (fun err => False ∨ IsStorageFull err) key obj
      (Tiers key obj R) :=
  (TieredSimulation.standsFor_cold h).trans
    (TieredSimulation.standsFor_lossless Chunks Chunks key obj)

theorem tiers_of_cold (h : StandsFor σ Chunks (fun _ => False) key obj R) (capacity : Option Nat)
    {cold : σ} {m : Chunks} (hrel : R cold m) :
    Tiers key obj R ⟨{ capacityBytes := capacity }, cold⟩ m := by
  refine ⟨⟨{ capacityBytes := capacity }, m⟩, ⟨rfl, hrel, fun k o hres => by cases hres⟩, rfl, ?_⟩
  intro k o hk hview
  obtain ⟨hsame, _⟩ := (h.get k hrel hk).same
  exact h.got k o hrel hk (hsame.trans (congrArg Except.ok hview))

/-- Until hot finds no room, the two tiers answer as the plain map of what the
cold one held at first. -/
theorem tiered_run (h : StandsFor σ Chunks (fun _ => False) key obj R) (capacity : Option Nat)
    {cold : σ} {m : Chunks} (hrel : R cold m) {ops : List (Op ChunkKey KVPayload)}
    (hops : ∀ op ∈ ops, op.Admitted key obj)
    (hroom : NeverFull
      ((machine (TieredBackend σ)).trace ⟨{ capacityBytes := capacity }, cold⟩ ops)) :
    (machine (TieredBackend σ)).trace ⟨{ capacityBytes := capacity }, cold⟩ ops =
      (flatMap ChunkKey KVPayload Raised).trace m.view ops := by
  have hrun := (standsFor_tiered h).run (tiers_of_cold h capacity hrel) hops
    fun entry hentry err herr hends => hroom entry hentry err herr (hends.resolve_left id)
  exact hrun.1.trans (LosslessStore.run_flatMap m ops).1

end Tiers

end LlmCache.Store.ColdTiers
