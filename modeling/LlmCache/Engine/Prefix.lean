import LlmCache.Engine.Descriptors
import LlmCache.Store.CPU

/-!
# What a lookup promises about the prompt

The chunks counted by the matching loop carry the fingerprints of the
registered chunks, so under a collision-free hash the request starts with them;
both formulas for the token count give the length of that common prefix.
-/

namespace LlmCache.Engine.Prefix

open Errors Lib Payload LlmCache.Types Store ExplicitKVCache Descriptors

variable {σ : Type} [StorageBackend σ] {blake2b : List UInt8 → String}

/-- The request starts with the registered tokens that a lookup calls reusable. -/
structure Sound (registered request : List Int) (chunkSize : Nat) (result : LookupResult) :
    Prop where
  le_registered : result.numTokens ≤ registered.length
  le_request : result.numTokens ≤ request.length
  isPrefix : request.take result.numTokens = registered.take result.numTokens
  total : (((tokenSlices registered chunkSize).take result.numChunks).map List.length).sum =
    result.numTokens
  chunks : result.numChunks = (result.numTokens + chunkSize - 1) / chunkSize
  full : result.full = true → request.take registered.length = registered

/-- Chunks with the same fingerprints are the same chunks. -/
theorem take_slices_eq (hinj : Function.Injective blake2b) {registered request : List (List Int)}
    {digests : List String} {m : Nat}
    (hdigests : fingerprints blake2b registered = .ok digests)
    (hmatch : matchLoop blake2b digests request = .ok m) :
    request.take m = registered.take m ∧ m ≤ registered.length := by
  obtain ⟨hm, hreq, hverified⟩ := matchLoop_spec hmatch
  have hforall := fingerprints_forall₂ hdigests
  have hlen : digests.length = registered.length := length_of_fingerprints hdigests
  have hmreg : m ≤ registered.length := by omega
  refine ⟨?_, hmreg⟩
  apply List.ext_getElem
  · simp only [List.length_take]
    omega
  · intro i hi hi'
    simp only [List.length_take] at hi hi'
    obtain ⟨chunk, fp, hchunk, hfp, hhash⟩ := hverified i (by omega)
    rw [List.getElem_take, List.getElem_take]
    have hreg : tokenFingerprint blake2b registered[i] = .ok digests[i] :=
      hforall.get (by omega) (by omega)
    rw [List.getElem?_eq_some_iff] at hchunk hfp
    obtain ⟨hlt, rfl⟩ := hchunk
    obtain ⟨hlt', rfl⟩ := hfp
    exact tokenFingerprint_inj hinj hhash hreg

/-- The tokens are signed 32-bit integers. -/
def Fit (tokens : List Int) : Prop :=
  ∀ token ∈ tokens, -2 ^ 31 ≤ token ∧ token < 2 ^ 31

theorem tokenRunBytes_of_fit {tokens : List Int} (h : Fit tokens) :
    ∃ bytes, tokenRunBytes tokens = .ok bytes := by
  induction tokens with
  | nil => exact ⟨[], rfl⟩
  | cons token tokens ih =>
      obtain ⟨rest, hrest⟩ := ih fun t ht => h t (List.mem_cons_of_mem _ ht)
      have hfits := h token (List.mem_cons_self ..)
      have hsome : (LittleEndian.toBytesSigned 4 token).isSome := by
        rw [LittleEndian.toBytesSigned_isSome_iff]
        omega
      obtain ⟨bytes, hbytes⟩ := Option.isSome_iff_exists.mp hsome
      exact ⟨bytes :: rest, by simp only [tokenRunBytes, tokenBytes, hbytes, hrest]⟩

theorem fingerprints_of_fit {chunks : List (List Int)} (h : ∀ chunk ∈ chunks, Fit chunk) :
    ∃ digests, fingerprints blake2b chunks = .ok digests := by
  apply exists_collect_iff.mpr
  intro chunk hchunk
  obtain ⟨bytes, hbytes⟩ := tokenRunBytes_of_fit (h chunk hchunk)
  rw [tokenFingerprint, hbytes]
  exact ⟨_, rfl⟩

theorem fit_of_mem_tokenSlices {tokens : List Int} (h : Fit tokens) (chunkSize : Nat) :
    ∀ chunk ∈ tokenSlices tokens chunkSize, Fit chunk := by
  intro chunk hchunk token htoken
  obtain ⟨i, _, rfl⟩ := List.mem_map.mp hchunk
  exact h token (List.mem_of_mem_drop (List.mem_of_mem_take htoken))

theorem matchLoop_of_fit (blake2b : List UInt8 → String) (fps : List String)
    {chunks : List (List Int)} (h : ∀ chunk ∈ chunks, Fit chunk) :
    ∃ matched, matchLoop blake2b fps chunks = .ok matched := by
  induction fps generalizing chunks with
  | nil => exact ⟨0, rfl⟩
  | cons fp fps ih =>
      cases chunks with
      | nil => exact ⟨0, rfl⟩
      | cons chunk chunks =>
          obtain ⟨bytes, hbytes⟩ := tokenRunBytes_of_fit (h chunk (List.mem_cons_self ..))
          obtain ⟨matched, hrest⟩ := ih fun c hc => h c (List.mem_cons_of_mem _ hc)
          by_cases hdigest : blake2b bytes.flatten = fp
          · refine ⟨matched + 1, ?_⟩
            simp [matchLoop, tokenFingerprint, hbytes, hdigest, hrest, Except.map]
          · refine ⟨0, ?_⟩
            simp [matchLoop, tokenFingerprint, hbytes, hdigest, Except.map]

theorem matchedChunks_of_fit (blake2b : List UInt8 → String) {d : CacheDescriptor}
    (hpos : 0 < d.chunkSize) {request : Option (List Int)} (hfit : ∀ tokens ∈ request, Fit tokens) :
    ∃ matched ≤ d.numChunks, matchedChunks blake2b d request = .ok matched := by
  cases request with
  | none => exact ⟨d.numChunks, le_rfl, rfl⟩
  | some tokens =>
      obtain ⟨matched, hmatched⟩ := matchLoop_of_fit blake2b d.chunkFingerprints
        (fit_of_mem_tokenSlices (hfit tokens rfl) d.chunkSize)
      refine ⟨matched, (matchLoop_spec hmatched).1, ?_⟩
      rw [matchedChunks, matchedChunkCount, chunkTokenIds_of_pos _ hpos]
      exact hmatched

/-- Chunks that carry the leading fingerprints are counted, and the loop goes on
behind them. -/
theorem matchLoop_append {chunks : List (List Int)} {digests : List String}
    (h : List.Forall₂ (fun chunk digest => tokenFingerprint blake2b chunk = .ok digest)
      chunks digests) (fps : List String) (others : List (List Int)) :
    matchLoop blake2b (digests ++ fps) (chunks ++ others) =
      (matchLoop blake2b fps others).map (· + digests.length) := by
  induction h with
  | nil =>
      rw [List.nil_append, List.nil_append]
      cases matchLoop blake2b fps others <;> rfl
  | cons hdigest _ ih =>
      simp only [List.cons_append, matchLoop, hdigest, ih, ne_eq, not_true_eq_false, if_false]
      cases matchLoop blake2b fps others with
      | error err => rfl
      | ok matched =>
          simp only [Except.map, List.length_cons, Nat.add_assoc]

theorem matchLoop_self {chunks : List (List Int)} {digests : List String}
    (h : fingerprints blake2b chunks = .ok digests) :
    matchLoop blake2b digests chunks = .ok digests.length := by
  have hmatch := matchLoop_append (fingerprints_forall₂ h) [] []
  simpa [matchLoop, Except.map] using hmatch

theorem matchedChunkCount_self {d : CacheDescriptor} {source : Source}
    (hd : Describes blake2b d source) :
    matchedChunkCount blake2b source.tokenIds d = .ok d.numChunks := by
  rw [matchedChunkCount, chunkTokenIds_of_pos _ hd.chunkSize_pos]
  exact matchLoop_self hd.digests

/-- How many tokens the first `m` chunks hold, and how many chunks they need. -/
theorem length_take_slices {tokens : List Int} {chunkSize m : Nat} (hpos : 0 < chunkSize)
    (hm : m ≤ (tokenSlices tokens chunkSize).length) :
    (tokens.take (m * chunkSize)).length =
        (if m = (tokenSlices tokens chunkSize).length then tokens.length else m * chunkSize) ∧
      m = ((tokens.take (m * chunkSize)).length + chunkSize - 1) / chunkSize := by
  rw [List.length_take]
  split_ifs with hall
  · have hcover := length_le_slices_mul tokens hpos
    rw [← hall] at hcover
    rw [Nat.min_eq_right hcover]
    refine ⟨rfl, ?_⟩
    rw [hall, length_tokenSlices]
  · have hlt := mul_lt_length_of_lt_slices hpos (Nat.lt_of_le_of_ne hm hall)
    rw [Nat.min_eq_left (by omega)]
    refine ⟨rfl, ?_⟩
    rw [Nat.add_sub_assoc hpos, Nat.mul_comm, Nat.mul_add_div hpos,
      Nat.div_eq_of_lt (by omega), Nat.add_zero]

/-- The matched chunks of a cache: how many tokens they hold by either formula,
and how many chunks these tokens need. -/
theorem length_of_matched {d : CacheDescriptor} {source : Source} (hd : Describes blake2b d source)
    {request : List Int} {m : Nat} (hm : matchedChunkCount blake2b request d = .ok m) :
    m ≤ d.numChunks ∧
      (if m = d.numChunks then d.numTokens else m * d.chunkSize) =
        (source.tokenIds.take (m * d.chunkSize)).length ∧
      m = ((source.tokenIds.take (m * d.chunkSize)).length + d.chunkSize - 1) / d.chunkSize := by
  have hpos := hd.chunkSize_pos
  have hloop : matchLoop blake2b d.chunkFingerprints (tokenSlices request d.chunkSize) =
      .ok m := by
    simpa only [matchedChunkCount, chunkTokenIds_of_pos _ hpos] using hm
  have hle : m ≤ d.numChunks := (matchLoop_spec hloop).1
  have hle' := hle
  rw [hd.numChunks] at hle'
  obtain ⟨hlength, hchunks⟩ := length_take_slices hpos hle'
  refine ⟨hle, ?_, hchunks⟩
  rw [hlength, ← hd.numChunks, hd.numTokens]

theorem lookup_of_ok {s : ExplicitKVCache σ} {cid : String} {request : Option (List Int)}
    {clock stamp : Time} {result : LookupResult}
    (h : (s.lookup blake2b cid request clock stamp).1 = .ok result) :
    ∃ d, s.descriptors.lookup cid = some d ∧ d.isExpired none clock = false ∧
      matchedChunks blake2b d request = .ok result.numChunks ∧
      result.numTokens =
        (if result.numChunks = d.numChunks then d.numTokens
          else result.numChunks * d.chunkSize) ∧
      result.full = decide (result.numChunks = d.numChunks) ∧
      (s.lookup blake2b cid request clock stamp).2 =
        s.publish cid { d with hits := d.hits + 1, lastUsedAt := some stamp } := by
  unfold ExplicitKVCache.lookup at h ⊢
  rcases liveDescriptor_cases s cid clock with
    ⟨_, hres⟩ | ⟨d, hd, ⟨_, hres⟩ | ⟨hlive, hres⟩⟩
  · simp [hres] at h
  · simp [hres] at h
  · simp only [hres] at h ⊢
    cases hmatched : matchedChunks blake2b d request with
    | error err => simp [hmatched] at h
    | ok m =>
        simp only [hmatched, Except.ok.injEq] at h
        subst h
        exact ⟨d, hd, hlive, hmatched, by simp, rfl, rfl⟩

theorem lookup_of_live {s : ExplicitKVCache σ} {cid : String} {d : CacheDescriptor}
    (hd : s.descriptors.lookup cid = some d) {clock : Time}
    (hlive : d.isExpired none clock = false) {request : Option (List Int)} {matched : Nat}
    (hmatched : matchedChunks blake2b d request = .ok matched) (stamp : Time) :
    s.lookup blake2b cid request clock stamp =
      (.ok ⟨cid, if matched = d.numChunks then d.numTokens else matched * d.chunkSize, matched,
          decide (matched = d.numChunks)⟩,
        s.publish cid { d with hits := d.hits + 1, lastUsedAt := some stamp }) := by
  simp [ExplicitKVCache.lookup, liveDescriptor, hd, hlive, hmatched]

theorem sound_of_describes (hinj : Function.Injective blake2b) {d : CacheDescriptor}
    {source : Source} (hd : Describes blake2b d source) {request : List Int}
    {result : LookupResult}
    (hmatched : matchedChunks blake2b d (some request) = .ok result.numChunks)
    (htokens : result.numTokens =
      if result.numChunks = d.numChunks then d.numTokens else result.numChunks * d.chunkSize)
    (hfull : result.full = decide (result.numChunks = d.numChunks)) :
    Sound source.tokenIds request d.chunkSize result := by
  have hpos := hd.chunkSize_pos
  have hloop : matchLoop blake2b d.chunkFingerprints (tokenSlices request d.chunkSize) =
      .ok result.numChunks := by
    simpa only [matchedChunks, matchedChunkCount, chunkTokenIds_of_pos _ hpos] using hmatched
  have hslices := (take_slices_eq hinj hd.digests hloop).1
  have hprefix : request.take (result.numChunks * d.chunkSize) =
      source.tokenIds.take (result.numChunks * d.chunkSize) := by
    rw [← flatten_take_tokenSlices _ hpos, ← flatten_take_tokenSlices _ hpos, hslices]
  obtain ⟨_, hlength, hchunks⟩ := length_of_matched hd hmatched
  have hn : result.numTokens = (source.tokenIds.take (result.numChunks * d.chunkSize)).length :=
    htokens.trans hlength
  have hn' : result.numTokens ≤ result.numChunks * d.chunkSize := by
    rw [hn, List.length_take]
    omega
  have htake : request.take result.numTokens = source.tokenIds.take result.numTokens := by
    have h := congrArg (List.take result.numTokens) hprefix
    rwa [List.take_take, List.take_take, Nat.min_eq_left hn'] at h
  refine ⟨?_, ?_, htake, ?_, ?_, ?_⟩
  · rw [hn, List.length_take]
    omega
  · rw [hn, ← hprefix, List.length_take]
    omega
  · rw [← List.length_flatten, flatten_take_tokenSlices _ hpos, hn]
  · rw [hn]
    exact hchunks
  · intro hall
    rw [hfull, decide_eq_true_eq] at hall
    rw [if_pos hall, hd.numTokens] at htokens
    rw [← htokens, htake, htokens, List.take_length]

/-- Whatever has happened to the engine, a lookup only calls tokens reusable
that the request shares with the latest registration of the id. -/
theorem lookup_sound (hinj : Function.Injective blake2b) (s : ExplicitKVCache σ)
    (hempty : s.descriptors = ∅) (ops : List EngineOp) (cid : String) (request : List Int)
    (clock stamp : Time) (result : LookupResult)
    (hresult : (((machine blake2b σ).exec s ops).lookup blake2b cid (some request) clock
      stamp).1 = .ok result) :
    ∃ source, latest ((machine blake2b σ).trace s ops) cid = some source ∧
      Sound source.tokenIds request s.chunkSize result := by
  have hinv : Described blake2b s.chunkSize _ _ := described_run s hempty ops
  obtain ⟨d, hd, _, hmatched, htokens, hfull, _⟩ := lookup_of_ok hresult
  obtain ⟨source, hlatest, hdesc, hsize, _⟩ := hinv.descriptors cid d hd
  refine ⟨source, hlatest, ?_⟩
  rw [← hsize]
  exact sound_of_describes hinj hdesc hmatched htokens hfull

/-- A collision-free stand-in for the hash: the digests of three short runs as
they are, and for every other input its bytes after a mark. -/
def sampleDigest (bytes : List UInt8) : String :=
  if bytes = [1, 0, 0, 0, 2, 0, 0, 0] then "2cc5e4d47c5f3c5fbe635a5a5b7bb392"
  else if bytes = [3, 0, 0, 0] then "de18007c0afadc771c45bf719bc7fe51"
  else if bytes = [4, 0, 0, 0] then "1c8a02f456942930c9730654ca687a3a"
  else String.ofList ('#' :: bytes.map fun b => Char.ofNat b.toNat)

theorem sampleDigest_injective : Function.Injective sampleDigest := by
  have hmap : Function.Injective (List.map fun b : UInt8 => Char.ofNat b.toNat) := by
    apply List.map_injective_iff.mpr
    intro a b h
    have hchar : ∀ n : Nat, n < 256 → (Char.ofNat n).toNat = n := by decide +kernel
    have hnat := congrArg Char.toNat h
    simp only [hchar _ a.toNat_lt, hchar _ b.toNat_lt] at hnat
    exact UInt8.toNat_inj.mp hnat
  have hmark : ∀ (known : String) (bytes : List UInt8), known.toList.head? ≠ some '#' →
      known ≠ String.ofList ('#' :: bytes.map fun b => Char.ofNat b.toNat) := by
    intro known bytes hknown heq
    rw [heq] at hknown
    simp at hknown
  intro a b h
  unfold sampleDigest at h
  split_ifs at h
  all_goals first
    | exact absurd h (by decide)
    | exact absurd h (hmark _ _ (by decide))
    | exact absurd h.symm (hmark _ _ (by decide))
    | exact hmap (List.cons.inj (String.ofList_injective h)).2
    | simp_all only

/-- Three tokens in chunks of two, and a request that leaves them after two. -/
theorem lookup_sound_partial :
    let s : ExplicitKVCache CPUBackend := ⟨{}, 2, by decide, none, ∅⟩
    let r : Registration :=
      ⟨[1, 2, 3], .sequence [.ofBytes [7], .ofBytes [8]], some "c", none, false, none⟩
    ∃ source, latest ((machine sampleDigest CPUBackend).trace s [.register r "new" 0]) "c" =
        some source ∧ Sound source.tokenIds [1, 2, 4] 2 ⟨"c", 2, 1, false⟩ := by
  intro s r
  exact lookup_sound sampleDigest_injective s rfl [.register r "new" 0] "c" [1, 2, 4] 0 0
    ⟨"c", 2, 1, false⟩ (by decide +kernel)

end LlmCache.Engine.Prefix
