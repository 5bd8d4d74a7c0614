import LlmCache.Errors
import LlmCache.Lib.Lists
import LlmCache.Lib.LittleEndian

/-!
# Core data types

Chunk keys, cache descriptors, the splitting of a token sequence into
fixed-size chunks, and the fingerprints by which a request proves that it
starts with the registered tokens.  The hash is a parameter: `blake2b` maps a
byte string to its hex digest.
-/

namespace LlmCache.Types

open Errors Lib

/-- Readings of the clock, in ticks of 2⁻¹⁰⁷⁴ seconds, of which every finite float is
a multiple. -/
abbrev Time := Int

/-- A float that is a lifetime or a time of expiry, in ticks. -/
inductive Ticks where
  | finite (ticks : Time)
  | posInf
  | negInf
  | nan
deriving DecidableEq, Repr

namespace Ticks

instance instOfNat (n : Nat) : OfNat Ticks n := ⟨.finite n⟩

/-- The nearest number of 53 significant bits, the even one of two. -/
def roundMagnitude (n : Nat) : Nat :=
  let unit := 2 ^ (n.log2 - 52)
  let down := n / unit
  let rest := n % unit
  if 2 * rest < unit ∨ 2 * rest = unit ∧ down % 2 = 0 then down * unit else (down + 1) * unit

/-- The float next to a number of ticks; one of 2¹⁰²⁴ seconds or more is infinite. -/
def rounded (ticks : Int) : Ticks :=
  let magnitude := roundMagnitude ticks.natAbs
  if magnitude.log2 < 2098 then .finite (ticks.sign * magnitude)
  else if 0 < ticks then .posInf else .negInf

-- above 2⁵³ only even numbers of ticks are floats
example : rounded (2 ^ 53 + 1) = .finite (2 ^ 53) ∧
    rounded (-2 ^ 53 - 3) = .finite (-2 ^ 53 - 4) := by
  decide

/-- `now + x`. -/
def after (now : Time) : Ticks → Ticks
  | .finite ticks => rounded (now + ticks)
  | .posInf => .posInf
  | .negInf => .negInf
  | .nan => .nan

/-- `reading >= x`; no reading reaches NaN. -/
def Reached : Ticks → Time → Prop
  | .finite expiry, reading => expiry ≤ reading
  | .negInf, _ => True
  | .posInf, _ | .nan, _ => False

instance decidableReached : (x : Ticks) → (reading : Time) → Decidable (x.Reached reading)
  | .finite expiry, reading => inferInstanceAs (Decidable (expiry ≤ reading))
  | .negInf, _ => inferInstanceAs (Decidable True)
  | .posInf, _ => inferInstanceAs (Decidable False)
  | .nan, _ => inferInstanceAs (Decidable False)

/-- `reading < x`; no reading is below NaN. -/
def Ahead : Ticks → Time → Prop
  | .finite expiry, reading => reading < expiry
  | .posInf, _ => True
  | .negInf, _ | .nan, _ => False

/-- Whatever reading reaches `x` reaches `y`. -/
def NoEarlier : Ticks → Ticks → Prop
  | .finite expiry, y => y.Reached expiry
  | .negInf, y => y = .negInf
  | .posInf, _ | .nan, _ => True

instance decidableNoEarlier : (x y : Ticks) → Decidable (x.NoEarlier y)
  | .finite expiry, y => inferInstanceAs (Decidable (y.Reached expiry))
  | .negInf, y => inferInstanceAs (Decidable (y = .negInf))
  | .posInf, _ => inferInstanceAs (Decidable True)
  | .nan, _ => inferInstanceAs (Decidable True)

end Ticks

/-- What is given as a lifetime: a float, or an integer that has one; an integer
that has none; a value of another type. -/
inductive Ttl where
  | float (x : Ticks)
  | huge (n : Int)
  | other (typeName : String)
deriving DecidableEq, Repr

namespace Ttl

instance instOfNat (n : Nat) : OfNat Ttl n := ⟨.float (.finite n)⟩

/-- `now + ttl`. -/
def addedTo (now : Time) : Ttl → Except Raised Ticks
  | .float x => .ok (x.after now)
  | .huge n => .error (.overflowError n)
  | .other typeName =>
      .error (.typeError ("unsupported operand type(s) for +: 'float' and '" ++ typeName ++ "'"))

/-- `(now + effective_ttl) if effective_ttl is not None else None`. -/
def expiry (now : Time) : Option Ttl → Except Raised (Option Ticks)
  | none => .ok none
  | some ttl => (ttl.addedTo now).map some

/-- It can be added to a reading. -/
def Addable : Ttl → Prop
  | .float _ => True
  | .huge _ | .other _ => False

instance decidableAddable : (ttl : Ttl) → Decidable ttl.Addable
  | .float _ => inferInstanceAs (Decidable True)
  | .huge _ => inferInstanceAs (Decidable False)
  | .other _ => inferInstanceAs (Decidable False)

end Ttl

/-- Storage key for a single KV chunk belonging to a cache handle. -/
structure ChunkKey where
  cacheId : String
  chunkIndex : Int
  workerId : Int := 0
deriving DecidableEq, Repr

/-- `int(t).to_bytes(4, "little", signed=True)`. -/
def tokenBytes (token : Int) : Except Raised (List UInt8) :=
  match LittleEndian.toBytesSigned 4 token with
  | some bytes => .ok bytes
  | none => .error (.overflowError token)

/-- The bytes fed to the hash, token by token. -/
def tokenRunBytes : List Int → Except Raised (List (List UInt8))
  | [] => .ok []
  | token :: tokens =>
      match tokenBytes token, tokenRunBytes tokens with
      | .ok bytes, .ok rest => .ok (bytes :: rest)
      | .error err, _ => .error err
      | .ok _, .error err => .error err

/-- Stable short fingerprint of a token run, used to validate prefix match. -/
def tokenFingerprint (blake2b : List UInt8 → String) (tokens : List Int) :
    Except Raised String :=
  (tokenRunBytes tokens).map fun chunks => blake2b chunks.flatten

/-- Metadata the engine keeps for one registered explicit cache. -/
structure CacheDescriptor where
  cacheId : String
  numTokens : Nat
  chunkSize : Nat
  numLayers : Int
  workerIds : List Int
  createdAt : Time
  expiresAt : Option Ticks
  pinned : Bool
  chunkFingerprints : List String := []
  name : Option String := none
  hits : Nat := 0
  lastUsedAt : Option Time := none
deriving DecidableEq, Repr

namespace CacheDescriptor

def numChunks (d : CacheDescriptor) : Nat :=
  d.chunkFingerprints.length

/-- `is_expired(now)`; `clock` is what `time.time()` reads when `now` is
missing or zero. -/
def isExpired (d : CacheDescriptor) (now : Option Time) (clock : Time) : Bool :=
  match d.expiresAt with
  | none => false
  | some expiry =>
      match now with
      | none => expiry.Reached clock
      | some reading => if reading = 0 then expiry.Reached clock else expiry.Reached reading

end CacheDescriptor

/-- `[list(tokens[i : i + chunk_size]) for i in range(0, len(tokens), chunk_size)]`. -/
def tokenSlices {α : Type} (tokens : List α) (chunkSize : Nat) : List (List α) :=
  (List.range ((tokens.length + chunkSize - 1) / chunkSize)).map fun i =>
    (tokens.drop (i * chunkSize)).take chunkSize

/-- Split a token sequence into fixed-size chunks (last may be short). -/
def chunkTokenIds (tokens : List Int) (chunkSize : Nat) : Except Raised (List (List Int)) :=
  if chunkSize = 0 then .error (.valueError "chunk_size must be positive")
  else .ok (tokenSlices tokens chunkSize)

/-- The matching loop: stored fingerprints against the request's chunks. -/
def matchLoop (blake2b : List UInt8 → String) :
    List String → List (List Int) → Except Raised Nat
  | [], _ => .ok 0
  | _ :: _, [] => .ok 0
  | fp :: fps, chunk :: chunks =>
      match tokenFingerprint blake2b chunk with
      | .error err => .error err
      | .ok digest =>
          if digest ≠ fp then .ok 0
          else (matchLoop blake2b fps chunks).map (· + 1)

/-- How many cached chunks are a valid prefix of the request's tokens. -/
def matchedChunkCount (blake2b : List UInt8 → String) (requestTokens : List Int)
    (d : CacheDescriptor) : Except Raised Nat :=
  match chunkTokenIds requestTokens d.chunkSize with
  | .error err => .error err
  | .ok chunks => matchLoop blake2b d.chunkFingerprints chunks

/-! ## Lifetimes -/

theorem Ticks.Reached.mono {x : Ticks} {reading later : Time} (h : x.Reached reading)
    (hle : reading ≤ later) : x.Reached later := by
  cases x with
  | finite expiry => exact le_trans h hle
  | negInf => exact h
  | posInf => exact h
  | nan => exact h

theorem Ticks.ahead_of_not_reached {x : Ticks} {reading : Time} (hnan : x ≠ .nan)
    (h : ¬x.Reached reading) : x.Ahead reading := by
  cases x with
  | finite expiry => exact Int.not_le.mp h
  | posInf => trivial
  | negInf => exact h trivial
  | nan => exact hnan rfl

theorem Ticks.rounded_ne_nan (ticks : Int) : Ticks.rounded ticks ≠ .nan := by
  unfold Ticks.rounded
  simp only
  split_ifs <;> simp

theorem Ticks.after_eq_nan_iff (now : Time) (x : Ticks) : x.after now = .nan ↔ x = .nan := by
  cases x <;> simp [Ticks.after, Ticks.rounded_ne_nan]

theorem Ticks.NoEarlier.refl (x : Ticks) : x.NoEarlier x := by
  cases x with
  | finite expiry => exact le_refl expiry
  | negInf => rfl
  | posInf => trivial
  | nan => trivial

theorem Ticks.NoEarlier.reached {x y : Ticks} (h : x.NoEarlier y) {reading : Time}
    (hx : x.Reached reading) : y.Reached reading := by
  cases x with
  | finite expiry => exact Ticks.Reached.mono h hx
  | negInf =>
      obtain rfl : y = .negInf := h
      trivial
  | posInf => exact hx.elim
  | nan => exact hx.elim

theorem Ttl.addedTo_ok_iff (now : Time) (ttl : Ttl) :
    (∃ x, ttl.addedTo now = .ok x) ↔ ttl.Addable := by
  cases ttl <;> simp [Ttl.addedTo, Ttl.Addable]

theorem Ttl.ne_nan_of_addedTo {ttl : Ttl} (h : ttl ≠ .float .nan) {now : Time} {x : Ticks}
    (hsum : ttl.addedTo now = .ok x) : x ≠ .nan := by
  cases ttl with
  | float y =>
      obtain rfl := Except.ok.inj hsum
      rw [Ne, Ticks.after_eq_nan_iff]
      exact fun hy => h (congrArg _ hy)
  | huge => cases hsum
  | other => cases hsum

theorem Ttl.ne_nan_of_expiry {ttl : Option Ttl} (h : ttl ≠ some (.float .nan)) {now : Time}
    {x : Ticks} (hexpiry : Ttl.expiry now ttl = .ok (some x)) : x ≠ .nan := by
  cases ttl with
  | none => cases hexpiry
  | some t =>
      cases hsum : t.addedTo now with
      | error err => simp [Ttl.expiry, hsum, Except.map] at hexpiry
      | ok y =>
          simp only [Ttl.expiry, hsum, Except.map, Except.ok.injEq, Option.some.injEq] at hexpiry
          rw [← hexpiry]
          exact Ttl.ne_nan_of_addedTo (fun heq => h (congrArg some heq)) hsum

theorem Ttl.expiry_ok_iff (now : Time) (ttl : Option Ttl) :
    (∃ expiresAt, Ttl.expiry now ttl = .ok expiresAt) ↔ ∀ t ∈ ttl, t.Addable := by
  cases ttl with
  | none => simp [Ttl.expiry]
  | some t =>
      have hsum := Ttl.addedTo_ok_iff now t
      cases hx : t.addedTo now with
      | error err => simpa [Ttl.expiry, hx, Except.map] using hsum
      | ok x => simpa [Ttl.expiry, hx, Except.map] using hsum

/-! ## Chunk boundaries -/

theorem chunkTokenIds_of_pos (tokens : List Int) {chunkSize : Nat} (hpos : 0 < chunkSize) :
    chunkTokenIds tokens chunkSize = .ok (tokenSlices tokens chunkSize) :=
  if_neg hpos.ne'

section Slices

variable {α : Type}

@[simp] theorem length_tokenSlices (tokens : List α) (chunkSize : Nat) :
    (tokenSlices tokens chunkSize).length = (tokens.length + chunkSize - 1) / chunkSize := by
  simp [tokenSlices]

theorem length_le_slices_mul (tokens : List α) {chunkSize : Nat} (hpos : 0 < chunkSize) :
    tokens.length ≤ (tokenSlices tokens chunkSize).length * chunkSize := by
  rw [length_tokenSlices]
  have hlt := Nat.lt_div_mul_add hpos (a := tokens.length + chunkSize - 1)
  omega

theorem mul_lt_length_of_lt_slices {tokens : List α} {chunkSize m : Nat}
    (hpos : 0 < chunkSize) (hm : m < (tokenSlices tokens chunkSize).length) :
    m * chunkSize < tokens.length := by
  rw [length_tokenSlices, Nat.lt_div_iff_mul_lt hpos] at hm
  omega

/-- The first `m` chunks hold the first `m * chunk_size` tokens. -/
theorem flatten_take_tokenSlices (tokens : List α) {chunkSize : Nat} (hpos : 0 < chunkSize)
    (m : Nat) :
    ((tokenSlices tokens chunkSize).take m).flatten = tokens.take (m * chunkSize) := by
  have hcover := length_le_slices_mul tokens hpos
  rw [length_tokenSlices] at hcover
  rw [tokenSlices, ← List.map_take, List.take_range, flatten_slices]
  rcases Nat.le_total m ((tokens.length + chunkSize - 1) / chunkSize) with hle | hle
  · rw [Nat.min_eq_left hle]
  · rw [Nat.min_eq_right hle, List.take_of_length_le hcover, List.take_of_length_le]
    exact hcover.trans (Nat.mul_le_mul_right _ hle)

theorem flatten_tokenSlices (tokens : List α) {chunkSize : Nat} (hpos : 0 < chunkSize) :
    (tokenSlices tokens chunkSize).flatten = tokens := by
  have h := flatten_take_tokenSlices tokens hpos (tokenSlices tokens chunkSize).length
  rwa [List.take_length, List.take_of_length_le (length_le_slices_mul tokens hpos)] at h

/-- `sum(len(c) for c in token_chunks)` is the number of tokens. -/
theorem sum_length_tokenSlices (tokens : List α) {chunkSize : Nat} (hpos : 0 < chunkSize) :
    ((tokenSlices tokens chunkSize).map List.length).sum = tokens.length := by
  rw [← List.length_flatten, flatten_tokenSlices tokens hpos]

/-! ## The slice loop -/

theorem tokenSlices_nil (chunkSize : Nat) (hpos : 0 < chunkSize) :
    tokenSlices ([] : List α) chunkSize = [] := by
  apply List.eq_nil_of_length_eq_zero
  rw [length_tokenSlices, List.length_nil]
  exact Nat.div_eq_of_lt (by omega)

theorem tokenSlices_of_ne_nil {tokens : List α} (hne : tokens ≠ []) {chunkSize : Nat}
    (hpos : 0 < chunkSize) :
    tokenSlices tokens chunkSize =
      tokens.take chunkSize :: tokenSlices (tokens.drop chunkSize) chunkSize := by
  have hlength : 0 < tokens.length := List.length_pos_of_ne_nil hne
  have hcount : (tokens.length + chunkSize - 1) / chunkSize =
      (tokens.length - chunkSize + chunkSize - 1) / chunkSize + 1 := by
    by_cases hshort : tokens.length ≤ chunkSize
    · have hone : tokens.length + chunkSize - 1 = chunkSize + (tokens.length - 1) := by omega
      rw [hone, Nat.add_div_left _ hpos, Nat.div_eq_of_lt (by omega), Nat.div_eq_of_lt (by omega)]
    · have hmore : tokens.length + chunkSize - 1 =
          tokens.length - chunkSize + chunkSize - 1 + chunkSize := by
        omega
      rw [hmore, Nat.add_div_right _ hpos]
  rw [tokenSlices, hcount, List.range_succ_eq_map, List.map_cons, List.map_map, Nat.zero_mul,
    List.drop_zero, tokenSlices, List.length_drop]
  congr 1
  apply List.map_congr_left
  intro i _
  show (tokens.drop ((i + 1) * chunkSize)).take chunkSize = _
  rw [List.drop_drop, Nat.succ_mul, Nat.add_comm]

/-- The loop takes a chunk off the front until nothing is left. -/
theorem slices_induction {motive : List α → Prop} {chunkSize : Nat} (hpos : 0 < chunkSize)
    (nil : motive [])
    (cons : ∀ tokens, tokens ≠ [] → motive (tokens.drop chunkSize) → motive tokens)
    (tokens : List α) : motive tokens := by
  induction hlength : tokens.length using Nat.strong_induction_on generalizing tokens with
  | _ length ih =>
      by_cases hne : tokens = []
      · rw [hne]
        exact nil
      · have hlt : (tokens.drop chunkSize).length < length := by
          have htokens := List.length_pos_of_ne_nil hne
          rw [List.length_drop]
          omega
        exact cons tokens hne (ih _ hlt _ rfl)

theorem length_of_mem_dropLast {chunkSize : Nat} (hpos : 0 < chunkSize) (tokens : List α) :
    ∀ chunk ∈ (tokenSlices tokens chunkSize).dropLast, chunk.length = chunkSize := by
  induction tokens using slices_induction hpos with
  | nil =>
      rw [tokenSlices_nil _ hpos]
      exact fun _ hchunk => absurd hchunk List.not_mem_nil
  | cons tokens hne ih =>
      rw [tokenSlices_of_ne_nil hne hpos]
      by_cases hmore : tokens.drop chunkSize = []
      · rw [hmore, tokenSlices_nil _ hpos]
        exact fun _ hchunk => absurd hchunk List.not_mem_nil
      · have hlength := List.length_pos_of_ne_nil hmore
        rw [List.length_drop] at hlength
        have hrest : tokenSlices (tokens.drop chunkSize) chunkSize ≠ [] := by
          rw [tokenSlices_of_ne_nil hmore hpos]
          exact List.cons_ne_nil _ _
        rw [List.dropLast_cons_of_ne_nil hrest]
        intro chunk hchunk
        rcases List.mem_cons.mp hchunk with rfl | hchunk
        · rw [List.length_take]
          omega
        · exact ih chunk hchunk

theorem length_of_mem_getLast {chunkSize : Nat} (hpos : 0 < chunkSize) (tokens : List α) :
    ∀ chunk ∈ (tokenSlices tokens chunkSize).getLast?,
      1 ≤ chunk.length ∧ chunk.length ≤ chunkSize := by
  induction tokens using slices_induction hpos with
  | nil =>
      rw [tokenSlices_nil _ hpos]
      intro chunk hchunk
      cases hchunk
  | cons tokens hne ih =>
      rw [tokenSlices_of_ne_nil hne hpos]
      by_cases hmore : tokens.drop chunkSize = []
      · have hlength := List.length_pos_of_ne_nil hne
        rw [hmore, tokenSlices_nil _ hpos, List.getLast?_singleton]
        intro chunk hchunk
        rw [← Option.some.inj hchunk, List.length_take]
        omega
      · have hrest : tokenSlices (tokens.drop chunkSize) chunkSize ≠ [] := by
          rw [tokenSlices_of_ne_nil hmore hpos]
          exact List.cons_ne_nil _ _
        rw [List.getLast?_cons_of_ne_nil hrest]
        exact ih

/-- Behind a run of whole chunks the tokens are cut as if they stood alone. -/
theorem tokenSlices_append {whole : List α} {chunkSize count : Nat} (hpos : 0 < chunkSize)
    (hwhole : whole.length = count * chunkSize) (rest : List α) :
    tokenSlices (whole ++ rest) chunkSize =
      tokenSlices whole chunkSize ++ tokenSlices rest chunkSize := by
  induction count generalizing whole with
  | zero =>
      have hnil : whole = [] := List.eq_nil_of_length_eq_zero (by omega)
      rw [hnil, tokenSlices_nil chunkSize hpos]
      rfl
  | succ count ih =>
      have hlength : chunkSize ≤ whole.length := by
        rw [hwhole, Nat.succ_mul]
        omega
      have hne : whole ≠ [] := by
        apply List.ne_nil_of_length_pos
        omega
      have hdrop : (whole.drop chunkSize).length = count * chunkSize := by
        rw [List.length_drop, hwhole, Nat.succ_mul]
        omega
      rw [tokenSlices_of_ne_nil (List.append_ne_nil_of_left_ne_nil hne rest) hpos,
        tokenSlices_of_ne_nil hne hpos, List.take_append_of_le_length hlength,
        List.drop_append_of_le_length hlength, ih hdrop, List.cons_append]

theorem tokenSlices_of_short {tokens : List α} (hne : tokens ≠ []) {chunkSize : Nat}
    (hshort : tokens.length ≤ chunkSize) : tokenSlices tokens chunkSize = [tokens] := by
  have hlength := List.length_pos_of_ne_nil hne
  have hpos : 0 < chunkSize := by omega
  rw [tokenSlices_of_ne_nil hne hpos, List.take_of_length_le hshort,
    List.drop_eq_nil_of_le hshort, tokenSlices_nil chunkSize hpos]

end Slices

/-! ## Fingerprints -/

theorem tokenBytes_inj {s t : Int} {bytes : List UInt8}
    (hs : tokenBytes s = .ok bytes) (ht : tokenBytes t = .ok bytes) : s = t := by
  unfold tokenBytes at hs ht
  split at hs <;> split at ht <;> simp_all
  rename_i hs' ht'
  exact LittleEndian.toBytesSigned_inj hs' ht'

theorem length_of_tokenBytes {token : Int} {bytes : List UInt8}
    (h : tokenBytes token = .ok bytes) : bytes.length = 4 := by
  unfold tokenBytes at h
  split at h
  · rename_i hsome
    simp only [Except.ok.injEq] at h
    exact h ▸ LittleEndian.length_of_toBytesSigned hsome
  · simp at h

theorem tokenRunBytes_cons {token : Int} {tokens : List Int} {out : List (List UInt8)}
    (h : tokenRunBytes (token :: tokens) = .ok out) :
    ∃ bytes rest, tokenBytes token = .ok bytes ∧ tokenRunBytes tokens = .ok rest ∧
      out = bytes :: rest := by
  simp only [tokenRunBytes] at h
  split at h
  · rename_i bytes rest hbytes hrest
    exact ⟨bytes, rest, hbytes, hrest, by simpa using h.symm⟩
  · simp at h
  · simp at h

theorem length_of_mem_tokenRunBytes {tokens : List Int} {out : List (List UInt8)}
    (h : tokenRunBytes tokens = .ok out) : ∀ bytes ∈ out, bytes.length = 4 := by
  induction tokens generalizing out with
  | nil =>
      simp only [tokenRunBytes, Except.ok.injEq] at h
      simp [← h]
  | cons token tokens ih =>
      obtain ⟨bytes, rest, hbytes, hrest, rfl⟩ := tokenRunBytes_cons h
      intro b hb
      rcases List.mem_cons.mp hb with rfl | hb
      · exact length_of_tokenBytes hbytes
      · exact ih hrest b hb

theorem tokenRunBytes_inj {s t : List Int} {out : List (List UInt8)}
    (hs : tokenRunBytes s = .ok out) (ht : tokenRunBytes t = .ok out) : s = t := by
  induction s generalizing t out with
  | nil =>
      simp only [tokenRunBytes, Except.ok.injEq] at hs
      cases t with
      | nil => rfl
      | cons y ys =>
          obtain ⟨_, _, _, _, hcons⟩ := tokenRunBytes_cons ht
          simp [← hs] at hcons
  | cons x xs ih =>
      obtain ⟨bytes, rest, hx, hxs, rfl⟩ := tokenRunBytes_cons hs
      cases t with
      | nil => simp [tokenRunBytes] at ht
      | cons y ys =>
          obtain ⟨bytes', rest', hy, hys, hcons⟩ := tokenRunBytes_cons ht
          obtain ⟨rfl, rfl⟩ := List.cons.inj hcons
          rw [tokenBytes_inj hx hy, ih hxs hys]

/-- Under a collision-free hash, equal fingerprints mean equal token runs. -/
theorem tokenFingerprint_inj {blake2b : List UInt8 → String}
    (hinj : Function.Injective blake2b) {s t : List Int} {fp : String}
    (hs : tokenFingerprint blake2b s = .ok fp) (ht : tokenFingerprint blake2b t = .ok fp) :
    s = t := by
  unfold tokenFingerprint at hs ht
  cases hrs : tokenRunBytes s with
  | error err => simp [hrs, Except.map] at hs
  | ok rs =>
      cases hrt : tokenRunBytes t with
      | error err => simp [hrt, Except.map] at ht
      | ok rt =>
          simp only [hrs, hrt, Except.map, Except.ok.injEq] at hs ht
          have hflat : rs.flatten = rt.flatten := hinj (hs.trans ht.symm)
          have hruns : rs = rt :=
            LittleEndian.flatten_inj (by decide : 0 < 4)
              (length_of_mem_tokenRunBytes hrs) (length_of_mem_tokenRunBytes hrt) hflat
          exact tokenRunBytes_inj hrs (hruns ▸ hrt)

/-! ## The matching loop -/

/-- What the loop has verified when it stops: every counted chunk of the
request carries the stored fingerprint. -/
theorem matchLoop_spec {blake2b : List UInt8 → String} {fps : List String}
    {chunks : List (List Int)} {m : Nat} (h : matchLoop blake2b fps chunks = .ok m) :
    m ≤ fps.length ∧ m ≤ chunks.length ∧
      ∀ i < m, ∃ chunk fp, chunks[i]? = some chunk ∧ fps[i]? = some fp ∧
        tokenFingerprint blake2b chunk = .ok fp := by
  induction fps generalizing chunks m with
  | nil =>
      simp only [matchLoop, Except.ok.injEq] at h
      subst h
      simp
  | cons fp fps ih =>
      cases chunks with
      | nil =>
          simp only [matchLoop, Except.ok.injEq] at h
          subst h
          simp
      | cons chunk chunks =>
          simp only [matchLoop] at h
          cases hfp : tokenFingerprint blake2b chunk with
          | error err => simp [hfp] at h
          | ok digest =>
              simp only [hfp] at h
              split_ifs at h with hne
              · simp only [Except.ok.injEq] at h
                subst h
                simp
              · cases hrest : matchLoop blake2b fps chunks with
                | error err => simp [hrest, Except.map] at h
                | ok n =>
                    simp only [hrest, Except.map, Except.ok.injEq] at h
                    subst h
                    obtain ⟨hfps, hchunks, hverified⟩ := ih hrest
                    refine ⟨by simpa using hfps, by simpa using hchunks, ?_⟩
                    intro i hi
                    cases i with
                    | zero => exact ⟨chunk, fp, rfl, rfl, by rw [hfp, not_not.mp hne]⟩
                    | succ i => simpa using hverified i (by omega)

end LlmCache.Types
