import LlmCache.Errors
import LlmCache.Lib.LittleEndian
import LlmCache.Payload
import Mathlib.Data.Rat.Encodable
import Mathlib.Logic.Equiv.List

/-!
# Payload framing

A framed payload is a magic, the length of the header in four little-endian
bytes, the header as JSON text, and the data.  The text of a JSON value is a
parameter: `json.dumps` and `json.loads`.
-/

namespace LlmCache.Payload

open Errors Lib

/-- `json.dumps` and `json.loads`. -/
structure JsonText where
  dumps : Json → String
  loads : String → Except Raised Json

/-- `text.encode("utf-8")`. -/
def encodeUtf8 (text : String) : List UInt8 :=
  text.toByteArray.data.toList

/-- `data.decode("utf-8")`. -/
def decodeUtf8 (data : List UInt8) : Except Raised String :=
  match String.fromUTF8? ⟨data.toArray⟩ with
  | none => .error .unicodeDecodeError
  | some text => .ok text

namespace Json

/-- `value[key]` with a string key. -/
def getItem : Json → String → Except Raised Json
  | .obj members, key =>
      match members.lookup key with
      | none => .error (.keyError key)
      | some value => .ok value
  | .arr _, _ => .error (.typeError "list indices must be integers or slices, not str")
  | .str _, _ => .error (.typeError "string indices must be integers, not 'str'")
  | .null, _ => .error (.typeError "'NoneType' object is not subscriptable")
  | .bool _, _ => .error (.typeError "'bool' object is not subscriptable")
  | .int _, _ => .error (.typeError "'int' object is not subscriptable")
  | .float _, _ => .error (.typeError "'float' object is not subscriptable")

/-- `value.get(key, default)` of an object. -/
def getD (value : Json) (key : String) (default : Json) : Json :=
  match value.getItem key with
  | .ok item => item
  | .error _ => default

/-- No NaN, and each object has each of its keys once. -/
inductive WellFormed : Json → Prop
  | null : WellFormed .null
  | bool (value : Bool) : WellFormed (.bool value)
  | int (value : Int) : WellFormed (.int value)
  | float {value : PyFloat} (h : value ≠ .nan) : WellFormed (.float value)
  | str (value : String) : WellFormed (.str value)
  | arr {items : List Json} (h : ∀ item ∈ items, WellFormed item) : WellFormed (.arr items)
  | obj {members : List (String × Json)} (hkeys : (members.map Prod.fst).Nodup)
      (h : ∀ member ∈ members, WellFormed member.2) : WellFormed (.obj members)

end Json

/-- `json.loads` inverts `json.dumps`. -/
def JsonText.Inverts (json : JsonText) : Prop :=
  ∀ value, value.WellFormed → json.loads (json.dumps value) = .ok value

/-- `_MAGIC = b"LKVP1\n"`. -/
def magic : List UInt8 := [76, 75, 86, 80, 49, 10]

/-- The metadata that travels in the header. -/
def header (payload : KVPayload) : Json :=
  .obj [("num_tokens", .int payload.numTokens), ("num_layers", .int payload.numLayers),
    ("fmt", .str payload.fmt), ("meta", .obj payload.metadata)]

def headerBytes (json : JsonText) (payload : KVPayload) : List UInt8 :=
  encodeUtf8 (json.dumps (header payload))

def packPayload (json : JsonText) (payload : KVPayload) : Except Raised (List UInt8) :=
  let encoded := headerBytes json payload
  match LittleEndian.toBytesUnsigned 4 encoded.length with
  | none => .error (.overflowError encoded.length)
  | some length => .ok [magic, length, encoded, payload.data].flatten

/-- A payload as `unpack_payload` builds it: nothing checks what the header has
under its keys. -/
structure UnpackedPayload where
  data : List UInt8
  numTokens : Json
  numLayers : Json
  fmt : Json
  metadata : Json
deriving DecidableEq

/-- The five fields of a payload. -/
def KVPayload.fields (payload : KVPayload) : UnpackedPayload where
  data := payload.data
  numTokens := .int payload.numTokens
  numLayers := .int payload.numLayers
  fmt := .str payload.fmt
  metadata := .obj payload.metadata

def unpackPayload (json : JsonText) (blob : List UInt8) : Except Raised UnpackedPayload :=
  if blob.take magic.length ≠ magic then .error (.serialization "bad payload framing")
  else do
    let hlen := LittleEndian.fromBytes ((blob.drop magic.length).take 4)
    let off := magic.length + 4
    let text ← decodeUtf8 ((blob.drop off).take hlen)
    let header ← json.loads text
    let numTokens ← header.getItem "num_tokens"
    let numLayers ← header.getItem "num_layers"
    let fmt ← header.getItem "fmt"
    return {
      data := blob.drop (off + hlen)
      numTokens := numTokens
      numLayers := numLayers
      fmt := fmt
      metadata := header.getD "meta" (.obj []) }

/-! ## The round trip -/

theorem decodeUtf8_encodeUtf8 (text : String) : decodeUtf8 (encodeUtf8 text) = .ok text := by
  have hvalid : text.toByteArray.IsValidUTF8 := text.isValidUTF8
  simp [decodeUtf8, encodeUtf8, String.fromUTF8?, String.fromUTF8, hvalid]

theorem KVPayload.fields_injective : Function.Injective KVPayload.fields := by
  intro p q h
  simp only [fields, UnpackedPayload.mk.injEq, Json.int.injEq, Json.str.injEq,
    Json.obj.injEq] at h
  cases p
  cases q
  simpa using h

theorem wellFormed_header {payload : KVPayload} (hmeta : (Json.obj payload.metadata).WellFormed) :
    (header payload).WellFormed := by
  apply Json.WellFormed.obj
  · simp
  · intro member hmember
    simp only [List.mem_cons, List.not_mem_nil, or_false] at hmember
    rcases hmember with rfl | rfl | rfl | rfl
    · exact .int _
    · exact .int _
    · exact .str _
    · exact hmeta

theorem unpackPayload_frame (json : JsonText) {length encoded : List UInt8} (data : List UInt8)
    (hlength : length.length = 4) (hencoded : LittleEndian.fromBytes length = encoded.length) :
    unpackPayload json [magic, length, encoded, data].flatten = do
      let text ← decodeUtf8 encoded
      let header ← json.loads text
      let numTokens ← header.getItem "num_tokens"
      let numLayers ← header.getItem "num_layers"
      let fmt ← header.getItem "fmt"
      return ⟨data, numTokens, numLayers, fmt, header.getD "meta" (.obj [])⟩ := by
  have hflat : [magic, length, encoded, data].flatten = magic ++ (length ++ (encoded ++ data)) := by
    simp
  have hmagic : ([magic, length, encoded, data].flatten).take magic.length = magic := by
    rw [hflat, List.take_left]
  have hrest : ([magic, length, encoded, data].flatten).drop magic.length =
      length ++ (encoded ++ data) := by
    rw [hflat, List.drop_left]
  have hbody : ([magic, length, encoded, data].flatten).drop (magic.length + 4) =
      encoded ++ data := by
    rw [← List.drop_drop, hrest, List.drop_left' hlength]
  have hdata : ([magic, length, encoded, data].flatten).drop (magic.length + 4 + encoded.length) =
      data := by
    rw [← List.drop_drop, hbody, List.drop_left]
  simp only [unpackPayload, hmagic, ne_eq, not_true_eq_false, if_false, hrest,
    List.take_left' hlength, hencoded, hbody, List.take_left, hdata]

/-- Framing raises when the header does not fit its length field, and only then. -/
theorem packPayload_cases (json : JsonText) (payload : KVPayload) :
    ((headerBytes json payload).length < 2 ^ 32 ∧ ∃ blob, packPayload json payload = .ok blob) ∨
      2 ^ 32 ≤ (headerBytes json payload).length ∧
        ∃ err, packPayload json payload = .error err := by
  cases hlength : LittleEndian.toBytesUnsigned 4 (headerBytes json payload).length with
  | none =>
      have hlong : 2 ^ 32 ≤ (headerBytes json payload).length := by
        unfold LittleEndian.toBytesUnsigned at hlength
        split_ifs at hlength
        omega
      exact .inr ⟨hlong, _, by rw [packPayload, hlength]⟩
  | some length =>
      have hshort : (headerBytes json payload).length < 2 ^ 32 := by
        unfold LittleEndian.toBytesUnsigned at hlength
        split_ifs at hlength
        omega
      exact .inl ⟨hshort, _, by rw [packPayload, hlength]⟩

theorem unpackPayload_of_pack {json : JsonText} (hjson : json.Inverts) {payload : KVPayload}
    (hmeta : (Json.obj payload.metadata).WellFormed) {blob : List UInt8}
    (hpack : packPayload json payload = .ok blob) :
    unpackPayload json blob = .ok payload.fields := by
  have hheader : json.loads (json.dumps (header payload)) = .ok (header payload) :=
    hjson _ (wellFormed_header hmeta)
  rw [packPayload] at hpack
  cases hlength : LittleEndian.toBytesUnsigned 4 (headerBytes json payload).length with
  | none =>
      rw [hlength] at hpack
      cases hpack
  | some length =>
      rw [hlength] at hpack
      obtain ⟨hfour, hcount⟩ := LittleEndian.fromBytes_of_toBytesUnsigned hlength
      rw [← Except.ok.inj hpack, unpackPayload_frame json payload.data hfour hcount, headerBytes,
        decodeUtf8_encodeUtf8]
      simp only [bind, Except.bind, hheader]
      rfl

/-- Unpacking a framed payload gives back all five fields, and framing raises
exactly when the encoded header does not fit its length field. -/
theorem unpack_pack (json : JsonText) (hjson : json.Inverts) (payload : KVPayload)
    (hmeta : (Json.obj payload.metadata).WellFormed) :
    ((headerBytes json payload).length < 2 ^ 32 →
        ∃ blob, packPayload json payload = .ok blob ∧
          unpackPayload json blob = .ok payload.fields) ∧
      ((∃ err, packPayload json payload = .error err) ↔
        2 ^ 32 ≤ (headerBytes json payload).length) := by
  rcases packPayload_cases json payload with ⟨hshort, blob, hpack⟩ | ⟨hlong, err, hpack⟩
  · refine ⟨fun _ => ⟨blob, hpack, unpackPayload_of_pack hjson hmeta hpack⟩, ?_⟩
    simp only [hpack, reduceCtorEq, exists_false, false_iff]
    omega
  · exact ⟨fun hshort => by omega, iff_of_true ⟨err, hpack⟩ hlong⟩

/-! ## A stand-in for `json`

One header has the text that `json.dumps` gives it.  Every other value has its
number in unary as its text. -/

def stringCode (text : String) : Nat :=
  Encodable.encode (text.toList.map Char.toNat)

def floatCode : PyFloat → Nat
  | .finite value => 2 * Encodable.encode value
  | .posInf => 1
  | .negInf => 3
  | .nan => 5

namespace Json

mutual

def code : Json → Nat
  | .null => 0
  | .bool value => 7 * Encodable.encode value + 1
  | .int value => 7 * Encodable.encode value + 2
  | .float value => 7 * floatCode value + 3
  | .str value => 7 * stringCode value + 4
  | .arr items => 7 * codeItems items + 5
  | .obj members => 7 * codeMembers members + 6
termination_by structural value => value

def codeItems : List Json → Nat
  | [] => 0
  | item :: items => Nat.pair (code item) (codeItems items) + 1
termination_by structural items => items

def codeMembers : List (String × Json) → Nat
  | [] => 0
  | (key, value) :: members =>
      Nat.pair (Nat.pair (stringCode key) (code value)) (codeMembers members) + 1
termination_by structural members => members

end

end Json

theorem stringCode_inj {s t : String} (h : stringCode s = stringCode t) : s = t := by
  have hchars := Encodable.encode_injective h
  apply String.toList_injective
  apply List.map_injective_iff.mpr _ hchars
  intro a b hab
  exact Char.toNat_inj.mp hab

theorem floatCode_inj {x y : PyFloat} (h : floatCode x = floatCode y) : x = y := by
  cases x with
  | finite a =>
      cases y with
      | finite b =>
          simp only [floatCode] at h
          rw [Encodable.encode_injective (by omega : Encodable.encode a = Encodable.encode b)]
      | _ => simp only [floatCode] at h; omega
  | _ => cases y <;> simp only [floatCode] at h <;> first | rfl | omega

namespace Json

mutual

theorem code_inj : ∀ v w : Json, code v = code w → v = w
  | .null, w, h => by cases w <;> simp only [code] at h <;> first | rfl | omega
  | .bool a, w, h => by
      cases w with
      | bool b =>
          simp only [code] at h
          rw [Encodable.encode_injective (by omega : Encodable.encode a = Encodable.encode b)]
      | _ => simp only [code] at h; omega
  | .int a, w, h => by
      cases w with
      | int b =>
          simp only [code] at h
          rw [Encodable.encode_injective (by omega : Encodable.encode a = Encodable.encode b)]
      | _ => simp only [code] at h; omega
  | .float a, w, h => by
      cases w with
      | float b =>
          simp only [code] at h
          rw [floatCode_inj (by omega : floatCode a = floatCode b)]
      | _ => simp only [code] at h; omega
  | .str a, w, h => by
      cases w with
      | str b =>
          simp only [code] at h
          rw [stringCode_inj (by omega : stringCode a = stringCode b)]
      | _ => simp only [code] at h; omega
  | .arr a, w, h => by
      cases w with
      | arr b =>
          simp only [code] at h
          rw [codeItems_inj a b (by omega)]
      | _ => simp only [code] at h; omega
  | .obj a, w, h => by
      cases w with
      | obj b =>
          simp only [code] at h
          rw [codeMembers_inj a b (by omega)]
      | _ => simp only [code] at h; omega
termination_by structural v => v

theorem codeItems_inj : ∀ a b : List Json, codeItems a = codeItems b → a = b
  | [], [], _ => rfl
  | x :: xs, y :: ys, h => by
      simp only [codeItems, Nat.add_right_cancel_iff, Nat.pair_eq_pair] at h
      rw [code_inj x y h.1, codeItems_inj xs ys h.2]
  | [], _ :: _, h => by simp [codeItems] at h
  | _ :: _, [], h => by simp [codeItems] at h
termination_by structural a => a

theorem codeMembers_inj : ∀ a b : List (String × Json), codeMembers a = codeMembers b → a = b
  | [], [], _ => rfl
  | (k, x) :: xs, (l, y) :: ys, h => by
      simp only [codeMembers, Nat.add_right_cancel_iff, Nat.pair_eq_pair] at h
      rw [stringCode_inj h.1.1, code_inj x y h.1.2, codeMembers_inj xs ys h.2]
  | [], _ :: _, h => by simp [codeMembers] at h
  | _ :: _, [], h => by simp [codeMembers] at h
termination_by structural a => a

end

end Json

/-- Two tokens of one layer; the data contain a whole frame prefix. -/
def samplePayload : KVPayload :=
  { data := magic ++ [2, 0, 0, 0] ++ magic, numTokens := 2, numLayers := 1,
    metadata := [("dtype", .str "int8")] }

def sampleHeaderText : String :=
  "\x7b\"num_tokens\": 2, \"num_layers\": 1, \"fmt\": \"raw\", " ++
    "\"meta\": \x7b\"dtype\": \"int8\"\x7d\x7d"

def sampleText (value : Json) : String :=
  if value = header samplePayload then sampleHeaderText
  else String.ofList (List.replicate value.code '#')

theorem sampleText_injective : Function.Injective sampleText := by
  have hmark : ∀ (known : String) (n : Nat), known.toList.head? = some '\x7b' →
      known ≠ String.ofList (List.replicate n '#') := by
    intro known n hknown heq
    rw [heq, String.toList_ofList] at hknown
    cases n with
    | zero => simp at hknown
    | succ n => simp [List.replicate_succ] at hknown
  intro v w h
  unfold sampleText at h
  split_ifs at h with hv hw hw
  · rw [hv, hw]
  · exact absurd h (hmark _ _ rfl)
  · exact absurd h.symm (hmark _ _ rfl)
  · apply Json.code_inj
    have hlength := congrArg List.length (String.ofList_injective h)
    simpa using hlength

instance : Nonempty Json := ⟨.null⟩

noncomputable def sampleJson : JsonText where
  dumps := sampleText
  loads text := .ok (Function.invFun sampleText text)

theorem sampleJson_inverts : sampleJson.Inverts := fun value _ =>
  congrArg Except.ok (Function.leftInverse_invFun sampleText_injective value)

theorem wellFormed_samplePayload : (Json.obj samplePayload.metadata).WellFormed := by
  apply Json.WellFormed.obj (by decide)
  intro member hmember
  rw [List.mem_singleton.mp hmember]
  exact .str _

theorem unpack_pack_sample :
    (headerBytes sampleJson samplePayload).length < 2 ^ 32 ∧
      (∃ blob, packPayload sampleJson samplePayload = .ok blob ∧
          unpackPayload sampleJson blob = .ok samplePayload.fields) ∧
      ((∃ err, packPayload sampleJson samplePayload = .error err) ↔
        2 ^ 32 ≤ (headerBytes sampleJson samplePayload).length) := by
  have hmeta := wellFormed_samplePayload
  have hshort : (headerBytes sampleJson samplePayload).length < 2 ^ 32 := by
    have htext : sampleJson.dumps (header samplePayload) = sampleHeaderText := by
      simp only [sampleJson, sampleText, if_true]
    rw [headerBytes, htext]
    decide +kernel
  obtain ⟨hround, hraises⟩ := unpack_pack sampleJson sampleJson_inverts samplePayload hmeta
  exact ⟨hshort, hround hshort, hraises⟩

/-! ## Foreign bytes -/

/-- The outcome is a payload or a `SerializationError`. -/
def Declared (outcome : Except Raised UnpackedPayload) : Prop :=
  ∀ err, outcome = .error err → ∃ message, err = .serialization message

/-- The bytes that the length field of a frame delimits, cut off where the blob
ends. -/
def headerRegion (blob : List UInt8) : List UInt8 :=
  (blob.drop (magic.length + 4)).take
    (LittleEndian.fromBytes ((blob.drop magic.length).take 4))

/-- The header is the text of an object with the three keys that have no
default. -/
def HeaderReadable (json : JsonText) (blob : List UInt8) : Prop :=
  ∃ text members, decodeUtf8 (headerRegion blob) = .ok text ∧
    json.loads text = .ok (.obj members) ∧
    ∀ key ∈ ["num_tokens", "num_layers", "fmt"], (members.lookup key).isSome

/-- `json.loads` knows nothing of the `CacheError` hierarchy. -/
def JsonText.RaisesForeign (json : JsonText) : Prop :=
  ∀ text err, json.loads text = .error err → ∀ message, err ≠ .serialization message

theorem getItem_cases (header : Json) (key : String) :
    (∃ members item, header = .obj members ∧ members.lookup key = some item ∧
        header.getItem key = .ok item) ∨
      ∃ err, header.getItem key = .error err ∧ ∀ message, err ≠ .serialization message := by
  cases header with
  | obj members =>
      cases hlookup : members.lookup key with
      | none => exact .inr ⟨.keyError key, by rw [Json.getItem, hlookup], fun _ h => by cases h⟩
      | some item =>
          exact .inl ⟨members, item, rfl, hlookup, by rw [Json.getItem, hlookup]⟩
  | null => exact .inr ⟨_, rfl, fun _ h => by cases h⟩
  | bool value => exact .inr ⟨_, rfl, fun _ h => by cases h⟩
  | int value => exact .inr ⟨_, rfl, fun _ h => by cases h⟩
  | float value => exact .inr ⟨_, rfl, fun _ h => by cases h⟩
  | str value => exact .inr ⟨_, rfl, fun _ h => by cases h⟩
  | arr items => exact .inr ⟨_, rfl, fun _ h => by cases h⟩

theorem not_declared_error {err : Raised} (h : ∀ message, err ≠ .serialization message) :
    ¬Declared (.error err) := by
  intro hdeclared
  obtain ⟨message, hmessage⟩ := hdeclared err rfl
  exact h message hmessage

theorem declared_ok (payload : UnpackedPayload) : Declared (.ok payload) := by
  intro err herr
  cases herr

/-- The fields read one after another from a header. -/
theorem declared_fields_iff (header : Json) (data : List UInt8) :
    Declared (do
      let numTokens ← header.getItem "num_tokens"
      let numLayers ← header.getItem "num_layers"
      let fmt ← header.getItem "fmt"
      return ⟨data, numTokens, numLayers, fmt, header.getD "meta" (.obj [])⟩) ↔
    ∃ members, header = .obj members ∧
      ∀ key ∈ ["num_tokens", "num_layers", "fmt"], (members.lookup key).isSome := by
  -- a field that cannot be read is missing, or the header is no object
  have hmissing : ∀ key ∈ ["num_tokens", "num_layers", "fmt"], ∀ err,
      header.getItem key = .error err → ¬∃ members, header = .obj members ∧
        ∀ key ∈ ["num_tokens", "num_layers", "fmt"], (members.lookup key).isSome := by
    rintro key hkey err herr ⟨members, rfl, hall⟩
    obtain ⟨item, hitem⟩ := Option.isSome_iff_exists.mp (hall key hkey)
    rw [Json.getItem, hitem] at herr
    cases herr
  rcases getItem_cases header "num_tokens" with ⟨members, tokens, rfl, htokens, hget⟩ |
    ⟨err, herr, hforeign⟩
  · rcases getItem_cases (.obj members) "num_layers" with ⟨_, layers, hobj, hlayers, hget'⟩ |
      ⟨err, herr, hforeign⟩
    · obtain rfl := Json.obj.inj hobj
      rcases getItem_cases (.obj members) "fmt" with ⟨_, fmt, hobj', hfmt, hget''⟩ |
        ⟨err, herr, hforeign⟩
      · obtain rfl := Json.obj.inj hobj'
        simp only [hget, hget', hget'', bind, Except.bind]
        apply iff_of_true (declared_ok _)
        refine ⟨members, rfl, fun key hkey => ?_⟩
        simp only [List.mem_cons, List.not_mem_nil, or_false] at hkey
        rcases hkey with rfl | rfl | rfl
        · rw [htokens]
          rfl
        · rw [hlayers]
          rfl
        · rw [hfmt]
          rfl
      · simp only [hget, hget', herr, bind, Except.bind]
        exact iff_of_false (not_declared_error hforeign) (hmissing "fmt" (by simp) err herr)
    · simp only [hget, herr, bind, Except.bind]
      exact iff_of_false (not_declared_error hforeign) (hmissing "num_layers" (by simp) err herr)
  · simp only [herr, bind, Except.bind]
    exact iff_of_false (not_declared_error hforeign) (hmissing "num_tokens" (by simp) err herr)

/-- Unpacking returns a payload or raises `SerializationError` exactly when the
magic is missing or the header can be read. -/
theorem unpackPayload_declared_iff (json : JsonText) (hforeign : json.RaisesForeign)
    (blob : List UInt8) :
    Declared (unpackPayload json blob) ↔
      blob.take magic.length ≠ magic ∨ HeaderReadable json blob := by
  unfold unpackPayload
  by_cases hmagic : blob.take magic.length = magic
  · rw [if_neg (not_not_intro hmagic), or_iff_right (not_not_intro hmagic)]
    show Declared (decodeUtf8 (headerRegion blob) >>= _) ↔ _
    unfold HeaderReadable
    cases htext : decodeUtf8 (headerRegion blob) with
    | error err =>
        have hunicode : err = .unicodeDecodeError := by
          unfold decodeUtf8 at htext
          cases hvalid : String.fromUTF8? ⟨(headerRegion blob).toArray⟩ with
          | none =>
              rw [hvalid] at htext
              exact (Except.error.inj htext).symm
          | some text =>
              rw [hvalid] at htext
              cases htext
        apply iff_of_false
        · exact not_declared_error (by rw [hunicode]; exact fun _ h => by cases h)
        · rintro ⟨text, members, hok, _⟩
          cases hok
    | ok text =>
        simp only [bind, Except.bind]
        cases hheader : json.loads text with
        | error err =>
            apply iff_of_false
            · exact not_declared_error (hforeign text err hheader)
            · rintro ⟨text', members, hok, hloads, _⟩
              obtain rfl := Except.ok.inj hok
              rw [hheader] at hloads
              cases hloads
        | ok header =>
            refine (declared_fields_iff header _).trans ?_
            constructor
            · rintro ⟨members, rfl, hall⟩
              exact ⟨text, members, rfl, hheader, hall⟩
            · rintro ⟨text', members, hok, hloads, hall⟩
              obtain rfl := Except.ok.inj hok
              rw [hheader] at hloads
              exact ⟨members, Except.ok.inj hloads, hall⟩
  · rw [if_pos hmagic]
    apply iff_of_true _ (.inl hmagic)
    intro err herr
    exact ⟨_, (Except.error.inj herr).symm⟩

/-- A parser that reads one header and says of every other text that it is none. -/
def oneHeaderJson : JsonText where
  dumps := sampleText
  loads text :=
    if text = sampleHeaderText then .ok (header samplePayload)
    else .error (.valueError "Expecting value: line 1 column 1 (char 0)")

/-- A frame cut off after the magic, and a whole one. -/
theorem unpackPayload_declared_iff_sample :
    ¬Declared (unpackPayload oneHeaderJson magic) ∧
      Declared (unpackPayload oneHeaderJson
        (magic ++ [75, 0, 0, 0] ++ encodeUtf8 sampleHeaderText ++ [7])) := by
  have hforeign : oneHeaderJson.RaisesForeign := by
    intro text err herr message
    simp only [oneHeaderJson] at herr
    split_ifs at herr
    rw [← Except.error.inj herr]
    exact fun h => by cases h
  constructor
  · rw [unpackPayload_declared_iff oneHeaderJson hforeign]
    rintro (hmagic | ⟨text, members, hok, hloads, _⟩)
    · exact hmagic rfl
    · have hempty : decodeUtf8 (headerRegion magic) = .ok "" := by decide +kernel
      obtain rfl := Except.ok.inj (hempty.symm.trans hok)
      have hfails : oneHeaderJson.loads "" ≠ .ok (.obj members) := by
        simp only [oneHeaderJson]
        rw [if_neg (by decide +kernel)]
        exact fun h => by cases h
      exact hfails hloads
  · rw [unpackPayload_declared_iff oneHeaderJson hforeign]
    right
    have hregion : headerRegion (magic ++ [75, 0, 0, 0] ++ encodeUtf8 sampleHeaderText ++ [7]) =
        encodeUtf8 sampleHeaderText := by
      decide +kernel
    refine ⟨sampleHeaderText, [("num_tokens", .int 2), ("num_layers", .int 1), ("fmt", .str "raw"),
      ("meta", .obj [("dtype", .str "int8")])], ?_, ?_, by decide +kernel⟩
    · rw [hregion, decodeUtf8_encodeUtf8]
    · have hloads : oneHeaderJson.loads sampleHeaderText = .ok (header samplePayload) := by
        simp only [oneHeaderJson, if_true]
      exact hloads

/-- A header that is no UTF-8 makes the decoder raise `UnicodeDecodeError`,
whatever parses the JSON. -/
theorem unpackPayload_undeclared :
    ¬∃ json : JsonText, ∀ blob, Declared (unpackPayload json blob) := by
  rintro ⟨json, hdeclared⟩
  have hdecode : decodeUtf8 (headerRegion (magic ++ [1, 0, 0, 0, 255])) =
      .error .unicodeDecodeError := by
    decide +kernel
  have hraises : unpackPayload json (magic ++ [1, 0, 0, 0, 255]) = .error .unicodeDecodeError := by
    rw [unpackPayload, if_neg (not_not_intro (by decide +kernel))]
    show decodeUtf8 (headerRegion (magic ++ [1, 0, 0, 0, 255])) >>= _ = _
    rw [hdecode]
    rfl
  obtain ⟨message, hmessage⟩ := hdeclared _ _ hraises
  cases hmessage

end LlmCache.Payload
