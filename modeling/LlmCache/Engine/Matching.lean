import LlmCache.Engine.Prefix

/-!
# How much of a longer prompt a lookup finds

The request is cut into chunks on its own length.  All chunks that lie inside
the common prefix are found; a short last chunk of the registration is compared
with a chunk of the request that may go on behind it.
-/

namespace LlmCache.Engine.Matching

open Errors Lib Payload LlmCache.Types Store ExplicitKVCache Descriptors Prefix

variable {σ : Type} [StorageBackend σ] {blake2b : List UInt8 → String}

/-! ## The shared chunks and what stands behind them -/

/-- How many whole chunks lie inside the common prefix. -/
def sharedChunks (registered request : List Int) (chunkSize : Nat) : Nat :=
  commonPrefix registered request / chunkSize

/-- The part of a token sequence behind the shared chunks. -/
def behind (registered request tokens : List Int) (chunkSize : Nat) : List Int :=
  tokens.drop (sharedChunks registered request chunkSize * chunkSize)

theorem sharedChunks_mul_le (registered request : List Int) (chunkSize : Nat) :
    sharedChunks registered request chunkSize * chunkSize ≤ commonPrefix registered request :=
  Nat.div_mul_le_self ..

/-- The shared chunks are counted, and the loop goes on behind them. -/
theorem matchedChunkCount_eq {d : CacheDescriptor} {source : Source}
    (hd : Describes blake2b d source) (request : List Int) :
    ∃ fps, fps.length + sharedChunks source.tokenIds request d.chunkSize = d.numChunks ∧
      List.Forall₂ (fun chunk digest => tokenFingerprint blake2b chunk = .ok digest)
        (tokenSlices (behind source.tokenIds request source.tokenIds d.chunkSize) d.chunkSize)
        fps ∧
      matchedChunkCount blake2b request d =
        (matchLoop blake2b fps
          (tokenSlices (behind source.tokenIds request request d.chunkSize) d.chunkSize)).map
          (· + sharedChunks source.tokenIds request d.chunkSize) := by
  have hpos := hd.chunkSize_pos
  have hshared := sharedChunks_mul_le source.tokenIds request d.chunkSize
  have hle := commonPrefix_le source.tokenIds request
  unfold behind
  generalize sharedChunks source.tokenIds request d.chunkSize = count at hshared ⊢
  have hsame : source.tokenIds.take (count * d.chunkSize) = request.take (count * d.chunkSize) := by
    have htake := congrArg (List.take (count * d.chunkSize))
      (take_commonPrefix source.tokenIds request)
    rwa [List.take_take, List.take_take, Nat.min_eq_left hshared] at htake
  have hlength : (source.tokenIds.take (count * d.chunkSize)).length = count * d.chunkSize := by
    rw [List.length_take]
    omega
  have hregistered := tokenSlices_append hpos hlength
    (source.tokenIds.drop (count * d.chunkSize))
  have hrequest := tokenSlices_append hpos hlength (request.drop (count * d.chunkSize))
  rw [List.take_append_drop] at hregistered
  rw [hsame, List.take_append_drop, ← hsame] at hrequest
  have hdigests := fingerprints_forall₂ hd.digests
  rw [hregistered] at hdigests
  have hcount : (tokenSlices (source.tokenIds.take (count * d.chunkSize)) d.chunkSize).length =
      count := by
    rw [length_tokenSlices, hlength, Nat.add_sub_assoc hpos, Nat.mul_comm, Nat.mul_add_div hpos,
      Nat.div_eq_of_lt (by omega), Nat.add_zero]
  have htotal := hdigests.length_eq
  rw [List.length_append, hcount] at htotal
  have htaken : (d.chunkFingerprints.take count).length = count := by
    rw [List.length_take]
    omega
  have hsplit := List.take_append_drop count d.chunkFingerprints
  rw [← hsplit] at hdigests
  have hfirst := List.forall₂_take_append _ _ _ hdigests
  have hothers := List.forall₂_drop_append _ _ _ hdigests
  rw [htaken, List.take_left' hcount] at hfirst
  rw [htaken, List.drop_left' hcount] at hothers
  refine ⟨d.chunkFingerprints.drop count, ?_, hothers, ?_⟩
  · rw [List.length_drop, CacheDescriptor.numChunks]
    omega
  · rw [matchedChunkCount, chunkTokenIds_of_pos _ hpos, ← hsplit, hrequest]
    simp only
    rw [matchLoop_append hfirst, htaken, hsplit]

theorem matched_ge {d : CacheDescriptor} {source : Source} (hd : Describes blake2b d source)
    {request : List Int} {matched : Nat}
    (hmatched : matchedChunkCount blake2b request d = .ok matched) :
    sharedChunks source.tokenIds request d.chunkSize ≤ matched := by
  obtain ⟨fps, _, _, hcount⟩ := matchedChunkCount_eq hd request
  rw [hcount] at hmatched
  cases hrest : matchLoop blake2b fps
      (tokenSlices (behind source.tokenIds request request d.chunkSize) d.chunkSize) with
  | error err =>
      rw [hrest] at hmatched
      cases hmatched
  | ok more =>
      rw [hrest] at hmatched
      have htotal : more + sharedChunks source.tokenIds request d.chunkSize = matched :=
        Except.ok.inj hmatched
      omega

/-! ## A short last chunk -/

/-- Where the last chunk of the registration starts, if it is short. -/
def tailStart (registered : List Int) (chunkSize : Nat) : Nat :=
  registered.length / chunkSize * chunkSize

/-- The last chunk is not short, or the request ends with it, or the chunk that
the request has in its place happens to have the same fingerprint. -/
def TailStands (blake2b : List UInt8 → String) (registered request : List Int)
    (chunkSize : Nat) : Prop :=
  registered.length % chunkSize = 0 ∨ request.length = registered.length ∨
    tokenFingerprint blake2b ((request.drop (tailStart registered chunkSize)).take chunkSize) =
      tokenFingerprint blake2b (registered.drop (tailStart registered chunkSize))

instance (registered request : List Int) (chunkSize : Nat) :
    Decidable (TailStands blake2b registered request chunkSize) :=
  inferInstanceAs (Decidable (_ ∨ _ ∨ _))

theorem behind_of_isPrefix {registered request : List Int} (h : registered <+: request)
    (tokens : List Int) (chunkSize : Nat) :
    behind registered request tokens chunkSize = tokens.drop (tailStart registered chunkSize) := by
  rw [behind, sharedChunks, commonPrefix_of_isPrefix h, tailStart]

theorem matchLoop_single {fp digest : String} {chunk : List Int}
    (h : tokenFingerprint blake2b chunk = .ok digest) (others : List (List Int)) :
    matchLoop blake2b [fp] (chunk :: others) = .ok (if digest = fp then 1 else 0) := by
  simp only [matchLoop, h]
  by_cases hdigest : digest = fp
  · rw [if_neg (not_not.mpr hdigest), if_pos hdigest]
    rfl
  · rw [if_pos hdigest, if_neg hdigest]

theorem length_drop_tailStart (registered : List Int) (chunkSize : Nat) :
    (registered.drop (tailStart registered chunkSize)).length = registered.length % chunkSize := by
  have hdecomposed := Nat.div_add_mod' registered.length chunkSize
  rw [List.length_drop, tailStart]
  omega

/-- A short last chunk stands when its fingerprint is the one that is found in
its place. -/
theorem tailStands_iff {registered request : List Int} {chunkSize : Nat} (hpos : 0 < chunkSize)
    (hstarts : registered <+: request) (hshort : registered.length % chunkSize ≠ 0)
    {digest fp : String}
    (hdigest : tokenFingerprint blake2b
      ((request.drop (tailStart registered chunkSize)).take chunkSize) = .ok digest)
    (hfp : tokenFingerprint blake2b (registered.drop (tailStart registered chunkSize)) = .ok fp) :
    TailStands blake2b registered request chunkSize ↔ digest = fp := by
  rw [TailStands, hdigest, hfp, Except.ok.injEq]
  constructor
  · rintro (hwhole | hequal | hsame)
    · exact absurd hwhole hshort
    · -- the request is the registration
      have hself : registered = request := hstarts.eq_of_length hequal.symm
      have hlength := length_drop_tailStart registered chunkSize
      have hlt := Nat.mod_lt registered.length hpos
      rw [← hself, List.take_of_length_le (by omega), hfp] at hdigest
      exact (Except.ok.inj hdigest).symm
    · exact hsame
  · intro hsame
    exact .inr (.inr hsame)

/-- All chunks of a registration that the request starts with are counted
exactly when its tail stands. -/
theorem matched_all_iff {d : CacheDescriptor} {source : Source} (hd : Describes blake2b d source)
    {request : List Int} (hstarts : source.tokenIds <+: request) (hfit : Fit request)
    {matched : Nat} (hmatched : matchedChunkCount blake2b request d = .ok matched) :
    matched = d.numChunks ↔ TailStands blake2b source.tokenIds request d.chunkSize := by
  have hpos := hd.chunkSize_pos
  obtain ⟨fps, hlength, hdigests, hcount⟩ := matchedChunkCount_eq hd request
  rw [behind_of_isPrefix hstarts] at hdigests hcount
  rw [hmatched] at hcount
  have htail := length_drop_tailStart source.tokenIds d.chunkSize
  by_cases hwhole : source.tokenIds.length % d.chunkSize = 0
  · -- nothing of the registration stands behind the shared chunks
    have hnil : source.tokenIds.drop (tailStart source.tokenIds d.chunkSize) = [] :=
      List.eq_nil_of_length_eq_zero (htail.trans hwhole)
    rw [hnil, tokenSlices_nil _ hpos] at hdigests
    cases hdigests
    have htotal : matched = 0 + sharedChunks source.tokenIds request d.chunkSize :=
      Except.ok.inj hcount
    refine iff_of_true ?_ (.inl hwhole)
    rw [htotal, ← hlength]
    rfl
  · have hlt := Nat.mod_lt source.tokenIds.length hpos
    have hne : source.tokenIds.drop (tailStart source.tokenIds d.chunkSize) ≠ [] := by
      apply List.ne_nil_of_length_pos
      omega
    rw [tokenSlices_of_short hne (by omega)] at hdigests
    obtain ⟨fp, _, hfp, hnone, rfl⟩ := List.forall₂_cons_left_iff.mp hdigests
    cases hnone
    have hne' : request.drop (tailStart source.tokenIds d.chunkSize) ≠ [] := by
      have hle := hstarts.length_le
      apply List.ne_nil_of_length_pos
      rw [List.length_drop] at htail ⊢
      omega
    have hchunk : Fit ((request.drop (tailStart source.tokenIds d.chunkSize)).take d.chunkSize) :=
      fun token htoken => hfit token (List.mem_of_mem_drop (List.mem_of_mem_take htoken))
    obtain ⟨bytes, hbytes⟩ := tokenRunBytes_of_fit hchunk
    have hdigest : tokenFingerprint blake2b
        ((request.drop (tailStart source.tokenIds d.chunkSize)).take d.chunkSize) =
          .ok (blake2b bytes.flatten) := by
      rw [tokenFingerprint, hbytes]
      rfl
    rw [tokenSlices_of_ne_nil hne' hpos, matchLoop_single hdigest] at hcount
    have htotal := Except.ok.inj hcount
    rw [tailStands_iff hpos hstarts hwhole hdigest hfp, htotal, ← hlength]
    by_cases hsame : blake2b bytes.flatten = fp
    · simp [hsame]
    · simp [hsame]

/-! ## Lookups -/

/-- A request that starts with the registered tokens finds them all, and any
other finds the whole chunks of the common prefix. -/
structure Complete (registered request : List Int) (chunkSize : Nat) (result : LookupResult) :
    Prop where
  whole : registered <+: request → result.full = true ∧ result.numTokens = registered.length
  shared : ¬registered <+: request →
    chunkSize * (commonPrefix registered request / chunkSize) ≤ result.numTokens

/-- A lookup of a live cache finds what the request shares with its latest
registration exactly when that registration's tail stands, should the request
go on behind it. -/
theorem lookup_complete_iff (blake2b : List UInt8 → String) (s : ExplicitKVCache σ)
    (hempty : s.descriptors = ∅) (ops : List EngineOp) (cid : String) {d : CacheDescriptor}
    (hd : ((machine blake2b σ).exec s ops).descriptors.lookup cid = some d) {clock : Time}
    (hlive : d.isExpired none clock = false) (stamp : Time) {request : List Int}
    (hfit : Fit request) :
    ∃ source, latest ((machine blake2b σ).trace s ops) cid = some source ∧
      ((∃ result, (((machine blake2b σ).exec s ops).lookup blake2b cid (some request) clock
            stamp).1 = .ok result ∧
          Complete source.tokenIds request s.chunkSize result) ↔
        (source.tokenIds <+: request →
          TailStands blake2b source.tokenIds request s.chunkSize)) := by
  have hinv : Described blake2b s.chunkSize _ _ := described_run s hempty ops
  obtain ⟨source, hlatest, hdesc, hsize, _⟩ := hinv.descriptors cid d hd
  refine ⟨source, hlatest, ?_⟩
  have hrequest : ∀ tokens ∈ some request, Fit tokens := by
    intro tokens htokens
    rwa [← Option.some.inj htokens]
  obtain ⟨matched, _, hmatched⟩ := matchedChunks_of_fit blake2b hdesc.chunkSize_pos hrequest
  have hlookup := lookup_of_live hd hlive hmatched stamp
  have hcount : matchedChunkCount blake2b request d = .ok matched := hmatched
  have hnum := hdesc.numTokens
  rw [← hsize]
  constructor
  · rintro ⟨result, hresult, hcomplete⟩ hstarts
    rw [hlookup] at hresult
    have hfull := (hcomplete.whole hstarts).1
    rw [← Except.ok.inj hresult] at hfull
    exact (matched_all_iff hdesc hstarts hfit hcount).mp (of_decide_eq_true hfull)
  · intro htail
    refine ⟨_, congrArg Prod.fst hlookup, ?_, ?_⟩
    · intro hstarts
      have hall := (matched_all_iff hdesc hstarts hfit hcount).mpr (htail hstarts)
      exact ⟨decide_eq_true hall, (if_pos hall).trans hnum⟩
    · intro _
      have hge := matched_ge hdesc hcount
      have hle := commonPrefix_le source.tokenIds request
      have hshared := sharedChunks_mul_le source.tokenIds request d.chunkSize
      show d.chunkSize * sharedChunks source.tokenIds request d.chunkSize ≤
        if matched = d.numChunks then d.numTokens else matched * d.chunkSize
      rw [Nat.mul_comm]
      split_ifs
      · omega
      · exact Nat.mul_le_mul_right d.chunkSize hge

/-- A request that goes on behind two whole chunks, after another cache was
registered. -/
theorem lookup_complete_iff_whole :
    let s : ExplicitKVCache CPUBackend := ⟨{}, 1, by decide, none, ∅⟩
    let other : Registration := ⟨[4], .sequence [.ofBytes [1]], some "d", none, false, none⟩
    let r : Registration :=
      ⟨[3, 4], .sequence [.ofBytes [7], .ofBytes [8]], some "c", some 60, false, none⟩
    let ops : List EngineOp := [.register r "new" 0, .register other "new" 1]
    ∃ source, latest ((machine sampleDigest CPUBackend).trace s ops) "c" = some source ∧
      ((∃ result, (((machine sampleDigest CPUBackend).exec s ops).lookup sampleDigest "c"
            (some [3, 4, 5]) 2 2).1 = .ok result ∧
          Complete source.tokenIds [3, 4, 5] 1 result) ↔
        (source.tokenIds <+: [3, 4, 5] → TailStands sampleDigest source.tokenIds [3, 4, 5] 1)) := by
  intro s other r ops
  have hd : ((machine sampleDigest CPUBackend).exec s ops).descriptors.lookup "c" =
      some ⟨"c", 2, 1, 1, [0], 0, some 60, false,
        ["de18007c0afadc771c45bf719bc7fe51", "1c8a02f456942930c9730654ca687a3a"], none, 0,
        none⟩ := by
    decide +kernel
  have hfit : Fit [3, 4, 5] := by
    intro token htoken
    simp only [List.mem_cons, List.not_mem_nil, or_false] at htoken
    omega
  exact lookup_complete_iff sampleDigest s rfl ops "c" hd (by decide) 2 hfit

/-- Three tokens in chunks of two, and a request that goes on behind them. -/
theorem short_tail_missed :
    let s : ExplicitKVCache CPUBackend := ⟨{}, 2, by decide, none, ∅⟩
    let r : Registration :=
      ⟨[1, 2, 3], .sequence [.ofBytes [7], .ofBytes [8]], some "c", none, false, none⟩
    let found := (((machine sampleDigest CPUBackend).exec s [.register r "new" 0]).lookup
      sampleDigest "c" (some [1, 2, 3, 4]) 0 0).1
    found = .ok ⟨"c", 2, 1, false⟩ ∧
      ¬∃ result, found = .ok result ∧ Complete [1, 2, 3] [1, 2, 3, 4] 2 result := by
  intro s r found
  have hfound : found = .ok ⟨"c", 2, 1, false⟩ := by decide +kernel
  refine ⟨hfound, ?_⟩
  rintro ⟨result, hresult, hcomplete⟩
  rw [hfound] at hresult
  have hfull := (hcomplete.whole (by decide)).1
  rw [← Except.ok.inj hresult] at hfull
  cases hfull

end LlmCache.Engine.Matching
