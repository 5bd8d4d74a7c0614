import LlmCache.Control.Server
import LlmCache.Engine.Batches
import LlmCache.Engine.Prefix
import LlmCache.Lib.Collect
import LlmCache.Payload.Framing

/-!
# The bodies of the management requests

`POST /v1/caches` and `POST /v1/caches/{id}/ttl` take any JSON value as their
body.  The conversions are followed up to the exceptions that they raise.
-/

namespace LlmCache.Control.Posts

open Errors Lib Payload LlmCache.Types Store Engine ExplicitKVCache CPUBackend CPUInvariants
  Batches Prefix

/-- `float(text)`, `int(text)` and `base64.b64decode(text)`, with the message of
their `ValueError`; and the string that stands for a value of another type where it
is a key or a name. -/
structure Conversions where
  float : String → Except String PyFloat
  int : String → Except String Int
  b64decode : String → Except String (List UInt8)
  text : Json → String

/-- The float of a number of seconds, in ticks. -/
def lifetime : PyFloat → Ticks
  | .finite seconds => Ticks.rounded (seconds.num * (2 ^ 1074 : Nat) / seconds.den)
  | .posInf => .posInf
  | .negInf => .negInf
  | .nan => .nan

/-- A value as a key or a name. -/
def Conversions.keyText (c : Conversions) : Json → String
  | .str text => text
  | value => c.text value

/-! ## What Python makes of a value -/

/-- `type(value).__name__`. -/
def typeName : Json → String
  | .null => "NoneType"
  | .bool _ => "bool"
  | .int _ => "int"
  | .float _ => "float"
  | .str _ => "str"
  | .arr _ => "list"
  | .obj _ => "dict"

/-- `list(value)`. -/
def iterate : Json → Except Raised (List Json)
  | .arr items => .ok items
  | .obj members => .ok (members.map fun member => .str member.1)
  | .str text => .ok (text.toList.map fun c => .str (String.singleton c))
  | value => .error (.typeError ("'" ++ typeName value ++ "' object is not iterable"))

/-- `bool(value)`. -/
def truthy : Json → Bool
  | .null => false
  | .bool value => value
  | .int n => n ≠ 0
  | .float x => x ≠ .finite 0
  | .str text => text ≠ ""
  | .arr items => !items.isEmpty
  | .obj members => !members.isEmpty

/-- The least integer that rounds to no double. -/
def floatBound : Int := 2 ^ 1024 - 2 ^ 970

/-- `float(value)`. -/
def toFloat (c : Conversions) : Json → Except Raised PyFloat
  | .bool value => .ok (.finite (if value then 1 else 0))
  | .int n =>
      if -floatBound < n ∧ n < floatBound then .ok (.finite n) else .error (.overflowError n)
  | .float x => .ok x
  | .str text => (c.float text).mapError .valueError
  | value => .error (.typeError
      ("float() argument must be a string or a real number, not '" ++ typeName value ++ "'"))

/-- `int(value)`. -/
def toInt (c : Conversions) : Json → Except Raised Int
  | .bool value => .ok (if value then 1 else 0)
  | .int n => .ok n
  | .float (.finite x) => .ok (x.num.tdiv x.den)
  | .float .nan => .error (.valueError "cannot convert float NaN to integer")
  | .float _ => .error .infinityError
  | .str text => (c.int text).mapError .valueError
  | value => .error (.typeError
      ("int() argument must be a string, a bytes-like object or a real number, not '" ++
        typeName value ++ "'"))

/-- `base64.b64decode(value)`. -/
def decode (c : Conversions) : Json → Except Raised (List UInt8)
  | .str text => (c.b64decode text).mapError .valueError
  | value => .error (.typeError
      ("argument should be a bytes-like object or ASCII string, not '" ++ typeName value ++ "'"))

/-- `hash(value)`, as far as it raises. -/
def requireHashable : Json → Except Raised Unit
  | .arr _ => .error (.typeError "unhashable type: 'list'")
  | .obj _ => .error (.typeError "unhashable type: 'dict'")
  | _ => .ok ()

/-! ## Reading a body -/

/-- The body of a request, as `json.loads` takes it: what does not decode raises a
`ValueError`, and what is nested too deeply for it a `RecursionError`. -/
inductive Content where
  | empty
  | malformed (message : String)
  | tooDeep
  | json (value : Json)

/-- `_read_json`. -/
def readJson : Content → Except Raised Json
  | .empty => .ok (.obj [])
  | .malformed message => .error (.valueError message)
  | .tooDeep => .error .recursionError
  | .json value => .ok value

/-- `float(self._read_json()["ttl"])`, in ticks. -/
def bodyTtl (c : Conversions) (content : Content) : Except Raised Ticks := do
  let body ← readJson content
  let value ← body.getItem "ttl"
  let seconds ← toFloat c value
  return lifetime seconds

/-- The arguments that `_register` hands to the engine. -/
structure Call where
  tokenIds : List Json
  payloads : List KVPayload
  cacheId : Json
  ttl : Json
  pin : Bool
  name : Json

/-- `KVPayload(data=base64.b64decode(b), num_tokens=0, num_layers=int(..))`. -/
def readPayload (c : Conversions) (body b : Json) : Except Raised KVPayload := do
  let data ← decode c b
  let numLayers ← toInt c (body.getD "num_layers" (.int 1))
  return { data := data, numTokens := 0, numLayers := numLayers }

def readCall (c : Conversions) (content : Content) : Except Raised Call := do
  let body ← readJson content
  let tokens ← body.getItem "token_ids"
  let tokenIds ← iterate tokens
  let entries ← body.getItem "payloads"
  let items ← iterate entries
  let payloads ← collect (readPayload c body) items
  return { tokenIds := tokenIds
           payloads := payloads
           cacheId := body.getD "cache_id" .null
           ttl := body.getD "ttl" .null
           pin := truthy (body.getD "pin" (.bool false))
           name := body.getD "name" .null }

/-! ## The engine on the values of a body -/

/-- `int(t).to_bytes(4, "little", signed=True)`. -/
def valueBytes (c : Conversions) (value : Json) : Except Raised (List UInt8) := do
  let token ← toInt c value
  tokenBytes token

def fingerprint (blake2b : List UInt8 → String) (c : Conversions) (values : List Json) :
    Except Raised String :=
  (collect (valueBytes c) values).map fun chunks => blake2b chunks.flatten

/-- The lifetime that a value gives, which the sum with the clock may yet refuse. -/
def givenTtl : Json → Option Ttl
  | .null => none
  | .bool value => some (.float (lifetime (.finite (if value then 1 else 0))))
  | .int n =>
      some (if -floatBound < n ∧ n < floatBound then .float (lifetime (.finite n)) else .huge n)
  | .float x => some (.float (lifetime x))
  | value => some (.other (typeName value))

def nameText (c : Conversions) : Json → Option String
  | .null => none
  | value => some (c.keyText value)

/-- `cache_id or CacheDescriptor.new_id()`, as a key in the dictionaries of the engine
and of a `CPUBackend`. -/
def idText (c : Conversions) (cacheId : Json) (newId : String) : String :=
  if truthy cacheId then c.keyText cacheId else newId

/-- What hashing the id raises; a drawn id can be hashed. -/
def hashId (cacheId : Json) : Except Raised Unit :=
  if truthy cacheId then requireHashable cacheId else .ok ()

/-- The chunks of the call, in the order in which they are stored. -/
def callPuts (c : Conversions) (call : Call) (newId : String) : List Chunk :=
  chunkPuts (idText c call.cacheId newId) (normalizePayloads (.sequence call.payloads))

variable {σ : Type} [StorageBackend σ]

def describe (blake2b : List UInt8 → String) (c : Conversions) (s : ExplicitKVCache σ)
    (call : Call) (newId : String) (now : Time) : Except Raised CacheDescriptor :=
  buildDescriptor (fingerprint blake2b c) s (idText c call.cacheId newId)
    (tokenSlices call.tokenIds s.chunkSize) (maxLayers (callPuts c call newId)) [0]
    (givenTtl call.ttl) call.pin (nameText c call.name) now

/-- The puts of the call; the first one hashes its key. -/
def putValues (hash : Except Raised Unit) (pin : Bool) (puts : List Chunk) (store : σ) :
    Except Raised Unit × σ :=
  match hash, puts with
  | .error err, _ :: _ => (.error err, store)
  | _, _ => putChunks pin puts store

/-- `register` from the puts on. -/
def storeCall (blake2b : List UInt8 → String) (c : Conversions) (s : ExplicitKVCache σ)
    (call : Call) (newId : String) (now : Time) :
    Except Raised CacheDescriptor × ExplicitKVCache σ :=
  let out := putValues (hashId call.cacheId) call.pin (callPuts c call newId) s.store
  let stored := { s with store := out.2 }
  match out.1 with
  | .error err => (.error err, stored)
  | .ok () =>
      match describe blake2b c s call newId now with
      | .error err => (.error err, stored)
      | .ok d =>
          match hashId call.cacheId with
          | .error err => (.error err, stored)
          | .ok () => (.ok d, stored.publish (idText c call.cacheId newId) d)

/-- `engine.register` on values that have not been checked. -/
def registerValues (blake2b : List UInt8 → String) (c : Conversions) (s : ExplicitKVCache σ)
    (call : Call) (newId : String) (now : Time) :
    Except Raised CacheDescriptor × ExplicitKVCache σ :=
  match checkCounts (tokenSlices call.tokenIds s.chunkSize).length
      (normalizePayloads (.sequence call.payloads)).entries with
  | .error err => (.error err, s)
  | .ok () => storeCall blake2b c s call newId now

/-! ## The handlers -/

/-- `except (KeyError, ValueError)`. -/
def isCaught : Raised → Bool
  | .keyError _ | .valueError _ => true
  | _ => false

/-- The answer to what is caught. -/
def refuse (err : Raised) : Except Raised Response :=
  if isCaught err then .ok ⟨400, .invalid err⟩ else .error err

/-- `_register`. -/
def register (blake2b : List UInt8 → String) (c : Conversions) (s : ExplicitKVCache σ)
    (content : Content) (newId : String) (now : Time) :
    Except Raised Response × ExplicitKVCache σ :=
  match readCall c content with
  | .error err => (refuse err, s)
  | .ok call =>
      let out := registerValues blake2b c s call newId now
      match out.1 with
      | .error err => (refuse err, out.2)
      | .ok d => (.ok ⟨201, .cache (descriptorToDict d)⟩, out.2)

/-- The management requests, with the id that is drawn and the clock readings. -/
inductive Post where
  | register (newId : String) (now : Time)
  | mutate (cacheId : String) (action : Action) (readings : Readings)

/-- `do_POST` behind its routing. -/
def handle (blake2b : List UInt8 → String) (c : Conversions) (s : ExplicitKVCache σ)
    (content : Content) : Post → Except Raised Response × ExplicitKVCache σ
  | .register newId now => register blake2b c s content newId now
  | .mutate cid action readings => mutate s cid action (bodyTtl c content) readings

/-! ## What is raised -/

section Handled

variable {α β : Type}

/-- Nothing is raised that the handlers let escape. -/
def Handled (x : Except Raised α) : Prop :=
  ∀ err, x = .error err → isCaught err = true

@[simp] theorem handled_ok (value : α) : Handled (.ok value) := by
  intro err herr
  cases herr

@[simp] theorem handled_pure (value : α) : Handled (pure value) :=
  handled_ok value

@[simp] theorem handled_error_iff (err : Raised) :
    Handled (.error err : Except Raised α) ↔ isCaught err = true := by
  simp [Handled]

theorem handled_bind_iff (x : Except Raised α) (f : α → Except Raised β) :
    Handled (x >>= f) ↔ Handled x ∧ ∀ value, x = .ok value → Handled (f value) := by
  cases x with
  | error err => simp [bind, Except.bind]
  | ok value => simp [bind, Except.bind]

theorem handled_map_iff (x : Except Raised α) (f : α → β) : Handled (x.map f) ↔ Handled x := by
  cases x <;> simp [Except.map]

theorem handled_mapError (x : Except String α) : Handled (x.mapError .valueError) := by
  cases x <;> simp [Except.mapError, isCaught]

theorem handled_collect_iff (f : α → Except Raised β) (xs : List α) :
    Handled (collect f xs) ↔ ∀ x, Reached f xs x → Handled (f x) := by
  simp only [Handled, collect_error_iff]
  constructor
  · exact fun h x hx err herr => h err ⟨x, hx, herr⟩
  · rintro h err ⟨x, hx, herr⟩
    exact h x hx err herr

end Handled

/-! ## Which values are refused and which escape -/

def IsText : Json → Prop
  | .str _ => True
  | _ => False

def IsIterable : Json → Prop
  | .str _ | .arr _ | .obj _ => True
  | _ => False

def IsHashable : Json → Prop
  | .arr _ | .obj _ => False
  | _ => True

/-- A number that has a double. -/
def IsReal : Json → Prop
  | .bool _ | .float _ => True
  | .int n => -floatBound < n ∧ n < floatBound
  | _ => False

/-- A number that `int` takes, or refuses with a `ValueError`. -/
def IsIntegral : Json → Prop
  | .bool _ | .int _ | .float (.finite _) | .float .nan => True
  | _ => False

theorem handled_iterate_iff (value : Json) : Handled (iterate value) ↔ IsIterable value := by
  cases value <;> simp [iterate, IsIterable, isCaught]

theorem handled_toFloat_iff (c : Conversions) (value : Json) :
    Handled (toFloat c value) ↔ IsReal value ∨ IsText value := by
  cases value with
  | int n =>
      simp only [toFloat, IsReal, IsText, or_false]
      split_ifs with h <;> simp [h, isCaught]
  | str text => simp [toFloat, IsText, handled_mapError]
  | _ => simp [toFloat, IsReal, IsText, isCaught]

theorem handled_toInt_iff (c : Conversions) (value : Json) :
    Handled (toInt c value) ↔ IsIntegral value ∨ IsText value := by
  cases value with
  | float x => cases x <;> simp [toInt, IsIntegral, IsText, isCaught]
  | str text => simp [toInt, IsText, handled_mapError]
  | _ => simp [toInt, IsIntegral, IsText, isCaught]

theorem handled_decode_iff (c : Conversions) (value : Json) :
    Handled (decode c value) ↔ IsText value := by
  cases value with
  | str text => simp [decode, IsText, handled_mapError]
  | _ => simp [decode, IsText, isCaught]

theorem handled_expiry_iff (now : Time) (ttl : Option Ttl) :
    Handled (Ttl.expiry now ttl) ↔ ∀ t ∈ ttl, t.Addable := by
  cases ttl with
  | none => simp [Ttl.expiry]
  | some t => cases t <;> simp [Ttl.expiry, Ttl.addedTo, Except.map, Ttl.Addable, isCaught]

/-- A lifetime that can be added: a number with a double, or null when the default
can be. -/
def LifetimeAddable (defaultTtl : Option Ttl) (value : Json) : Prop :=
  IsReal value ∨ value = .null ∧ ∀ ttl ∈ defaultTtl, ttl.Addable

theorem addable_given_iff (defaultTtl : Option Ttl) (value : Json) :
    (∀ ttl ∈ (givenTtl value).or defaultTtl, ttl.Addable) ↔
      LifetimeAddable defaultTtl value := by
  cases value with
  | int n =>
      by_cases h : -floatBound < n ∧ n < floatBound <;>
        simp [givenTtl, LifetimeAddable, IsReal, Ttl.Addable, h]
  | _ => simp [givenTtl, LifetimeAddable, IsReal, Ttl.Addable]

theorem handled_getItem_iff (value : Json) (key : String) :
    Handled (value.getItem key) ↔ ∃ members, value = .obj members := by
  cases value with
  | obj members =>
      simp only [Json.getItem]
      cases members.lookup key <;> simp [isCaught]
  | _ => simp [Json.getItem, isCaught]

theorem getItem_obj_ok_iff (members : List (String × Json)) (key : String) (value : Json) :
    (Json.obj members).getItem key = .ok value ↔ members.lookup key = some value := by
  simp only [Json.getItem]
  cases members.lookup key <;> simp

/-- The entry is a string, and beside an entry that decodes the number of layers
can be read. -/
def EntryReadable (c : Conversions) (body b : Json) : Prop :=
  IsText b ∧ ∀ data, decode c b = .ok data →
    IsIntegral (body.getD "num_layers" (.int 1)) ∨ IsText (body.getD "num_layers" (.int 1))

/-- The token can be read, and then fits 32 bits. -/
def TokenReadable (c : Conversions) (value : Json) : Prop :=
  (IsIntegral value ∨ IsText value) ∧
    ∀ token, toInt c value = .ok token → -2 ^ 31 ≤ token ∧ token < 2 ^ 31

/-- The fields of the body can be read, up to the first that is refused. -/
def FieldsReadable (c : Conversions) (members : List (String × Json)) : Prop :=
  ∀ tokens, members.lookup "token_ids" = some tokens → IsIterable tokens ∧
    ∀ entries, members.lookup "payloads" = some entries → IsIterable entries ∧
      ∀ items, iterate entries = .ok items → ∀ b, Reached (readPayload c (.obj members)) items b →
        EntryReadable c (.obj members) b

def BodyReadable (c : Conversions) : Content → Prop
  | .empty | .malformed _ => True
  | .tooDeep => False
  | .json body => ∃ members, body = .obj members ∧ FieldsReadable c members

theorem handled_readPayload_iff (c : Conversions) (body b : Json) :
    Handled (readPayload c body b) ↔ EntryReadable c body b := by
  simp only [readPayload, EntryReadable, handled_bind_iff, handled_decode_iff, handled_toInt_iff,
    handled_pure, implies_true, and_true]

theorem handled_valueBytes_iff (c : Conversions) (value : Json) :
    Handled (valueBytes c value) ↔ TokenReadable c value := by
  have hfits : ∀ token, Handled (tokenBytes token) ↔ -2 ^ 31 ≤ token ∧ token < 2 ^ 31 := by
    intro token
    have hsome := LittleEndian.toBytesSigned_isSome_iff 4 token
    unfold tokenBytes
    cases hbytes : LittleEndian.toBytesSigned 4 token with
    | none =>
        simp only [hbytes, Option.isSome_none, Bool.false_eq_true, false_iff] at hsome
        simp only [handled_error_iff, isCaught, Bool.false_eq_true, false_iff]
        omega
    | some bytes =>
        simp only [hbytes, Option.isSome_some, true_iff] at hsome
        simp only [handled_ok, true_iff]
        omega
  simp only [valueBytes, TokenReadable, handled_bind_iff, handled_toInt_iff, hfits]

theorem exists_iterate_of {value : Json} (h : IsIterable value) :
    ∃ items, iterate value = .ok items := by
  cases value with
  | str text => exact ⟨_, rfl⟩
  | arr items => exact ⟨_, rfl⟩
  | obj members => exact ⟨_, rfl⟩
  | _ => exact h.elim

theorem handled_readCall_iff (c : Conversions) (content : Content) :
    Handled (readCall c content) ↔ BodyReadable c content := by
  cases content with
  | empty => simp [readCall, readJson, Json.getItem, BodyReadable, handled_bind_iff, isCaught]
  | malformed message => simp [readCall, readJson, BodyReadable, handled_bind_iff, isCaught]
  | tooDeep => simp [readCall, readJson, BodyReadable, handled_bind_iff, isCaught]
  | json body =>
      simp only [readCall, readJson, BodyReadable, handled_bind_iff, handled_ok, handled_pure,
        handled_getItem_iff, handled_iterate_iff, handled_collect_iff, handled_readPayload_iff,
        Except.ok.injEq, true_and, implies_true, and_true, forall_eq']
      rw [← exists_and_right]
      apply exists_congr
      intro members
      apply and_congr_right
      rintro rfl
      simp only [getItem_obj_ok_iff, FieldsReadable, Json.obj.injEq, exists_eq', true_and]
      apply forall₂_congr
      intro tokens _
      apply and_congr_right
      intro hiterable
      obtain ⟨tokenIds, htokenIds⟩ := exists_iterate_of hiterable
      simp only [htokenIds, Except.ok.injEq, forall_eq']

/-! ## Registering the values of a body -/

/-- The call can be answered: its id can be hashed, the store has room for the
chunks one after another, the lifetime can be added to the clock, and the tokens
can be read up to the first that is refused. -/
structure CallAnswerable (c : Conversions) (s : ExplicitKVCache CPUBackend) (call : Call)
    (newId : String) : Prop where
  hashable : truthy call.cacheId = true → IsHashable call.cacheId
  room : Batches.Accepted s.store call.pin (callPuts c call newId)
  ttl : LifetimeAddable s.defaultTtl call.ttl
  tokens : ∀ value, Reached (valueBytes c) call.tokenIds value → TokenReadable c value

variable {blake2b : List UInt8 → String} {c : Conversions} {call : Call} {newId : String}

theorem handled_fingerprints_iff {values : List Json} {size : Nat} (hpos : 0 < size) :
    Handled (collect (fingerprint blake2b c) (tokenSlices values size)) ↔
      ∀ value, Reached (valueBytes c) values value → TokenReadable c value := by
  have hsame : ∀ chunk, (∃ digest, fingerprint blake2b c chunk = .ok digest) ↔
      ∃ bytes, collect (valueBytes c) chunk = .ok bytes := by
    intro chunk
    unfold fingerprint
    cases collect (valueBytes c) chunk <;> simp [Except.map]
  have hflat := flatten_tokenSlices values hpos
  simp only [handled_collect_iff, reached_congr hsame]
  simp only [fingerprint, handled_map_iff, handled_collect_iff, handled_valueBytes_iff]
  constructor
  · intro h value hvalue
    rw [← hflat] at hvalue
    obtain ⟨chunk, hchunk, hin⟩ := reached_flatten_iff.mp hvalue
    exact h chunk hchunk value hin
  · intro h chunk hchunk value hin
    apply h
    rw [← hflat]
    exact reached_flatten_iff.mpr ⟨chunk, hchunk, hin⟩

omit [StorageBackend σ] in
theorem handled_describe_iff (s : ExplicitKVCache σ) (now : Time) :
    Handled (describe blake2b c s call newId now) ↔
      LifetimeAddable s.defaultTtl call.ttl ∧
        ∀ value, Reached (valueBytes c) call.tokenIds value → TokenReadable c value := by
  rw [← addable_given_iff, ← @handled_fingerprints_iff blake2b c _ _ s.chunkSize_pos,
    ← handled_expiry_iff now]
  have haddable := (handled_expiry_iff now ((givenTtl call.ttl).or s.defaultTtl)).trans
    (Ttl.expiry_ok_iff now _).symm
  unfold describe buildDescriptor
  generalize Ttl.expiry now ((givenTtl call.ttl).or s.defaultTtl) = deadline at haddable ⊢
  cases deadline with
  | error err =>
      have huncaught : isCaught err = false := by simpa using haddable
      simp [huncaught]
  | ok expiresAt =>
      cases collect (fingerprint blake2b c) (tokenSlices call.tokenIds s.chunkSize) <;> simp

omit [StorageBackend σ] in
theorem describe_of_no_tokens (s : ExplicitKVCache σ) (now : Time) (hnil : call.tokenIds = [])
    (h : Handled (describe blake2b c s call newId now)) :
    ∃ d, describe blake2b c s call newId now = .ok d := by
  obtain ⟨haddable, _⟩ := (handled_describe_iff s now).mp h
  obtain ⟨expiresAt, hexpiry⟩ := (Ttl.expiry_ok_iff now _).mpr
    ((addable_given_iff s.defaultTtl call.ttl).mpr haddable)
  unfold describe
  rw [hnil, tokenSlices_nil _ s.chunkSize_pos]
  exact ⟨_, Descriptors.build_of_ok hexpiry rfl⟩

theorem hashId_ok_iff (cacheId : Json) :
    hashId cacheId = .ok () ↔ (truthy cacheId = true → IsHashable cacheId) := by
  unfold hashId
  cases hnamed : truthy cacheId with
  | false => simp
  | true => cases cacheId <;> simp [requireHashable, IsHashable]

theorem not_handled_hashId {err : Raised} (herr : hashId call.cacheId = .error err) :
    isCaught err = false := by
  unfold hashId at herr
  split_ifs at herr
  cases hid : call.cacheId <;> simp only [hid, requireHashable, reduceCtorEq, Except.error.injEq]
    at herr <;> rw [← herr] <;> rfl

theorem nodup_callPuts (c : Conversions) (call : Call) (newId : String) :
    (keysOf (callPuts c call newId)).Nodup :=
  nodup_putsOf { tokenIds := [], payloads := .sequence call.payloads }
    (idText c call.cacheId newId)

theorem uncaught_of_putChunks {store : CPUBackend} (h : Accounted store) {err : Raised}
    (herr : (putChunks call.pin (callPuts c call newId) store).1 = .error err) :
    isCaught err = false := by
  rcases putChunks_cases h (nodup_callPuts c call newId) call.pin with
    ⟨hok, _⟩ | ⟨before, next, later, t, err', _, _, _, hput, hputs⟩
  · rw [hok] at herr
    cases herr
  · obtain ⟨message, rfl⟩ := Eviction.put_error_storageFull accepts_noCallback hput
    rw [hputs] at herr
    cases herr
    rfl

theorem checkCounts_sequence (expected : Nat) (payloads : List KVPayload) :
    (checkCounts expected (normalizePayloads (.sequence payloads)).entries = .ok () ∧
        payloads.length = expected) ∨
      ∃ message, checkCounts expected (normalizePayloads (.sequence payloads)).entries =
        .error (.valueError message) ∧ payloads.length ≠ expected := by
  have hentries : (normalizePayloads (.sequence payloads)).entries = [⟨0, payloads⟩] := rfl
  rw [hentries]
  by_cases hcount : payloads.length = expected
  · left
    simp [checkCounts, hcount]
  · right
    exact ⟨_, if_pos hcount, hcount⟩

/-- An id that cannot be hashed stops the call with the first chunk, or without
one when the descriptor is entered. -/
theorem not_handled_of_unhashable {s : ExplicitKVCache CPUBackend} (now : Time)
    (hlength : call.payloads.length = (tokenSlices call.tokenIds s.chunkSize).length) {err : Raised}
    (hhash : hashId call.cacheId = .error err) :
    ¬Handled (storeCall blake2b c s call newId now).1 := by
  have huncaught := not_handled_hashId hhash
  unfold storeCall
  rw [hhash]
  cases hputs : callPuts c call newId with
  | cons put rest => simp [putValues, huncaught]
  | nil =>
      have hnil : call.tokenIds = [] := by
        have hkeys : callPuts c call newId = call.payloads.zipIdx.map fun chunk =>
            (⟨idText c call.cacheId newId, chunk.2, 0⟩, chunk.1) := by
          simp [callPuts, chunkPuts, normalizePayloads]
        rw [hputs, eq_comm, List.map_eq_nil_iff, List.zipIdx_eq_nil_iff] at hkeys
        rw [hkeys, List.length_nil, eq_comm, List.length_eq_zero_iff] at hlength
        rw [← flatten_tokenSlices call.tokenIds s.chunkSize_pos, hlength]
        rfl
      simp only [putValues, putChunks]
      cases hd : describe blake2b c s call newId now with
      | ok d => simp [huncaught]
      | error err' =>
          intro hhandled
          have hhandled' : Handled (describe blake2b c s call newId now) := by
            rw [hd]
            exact (handled_error_iff err').mpr ((handled_error_iff err').mp hhandled)
          obtain ⟨d, hok⟩ := describe_of_no_tokens s now hnil hhandled'
          rw [hd] at hok
          cases hok

theorem handled_of_hashable {s : ExplicitKVCache CPUBackend} (h : Accounted s.store) (now : Time)
    (hhash : hashId call.cacheId = .ok ()) :
    Handled (storeCall blake2b c s call newId now).1 ↔ CallAnswerable c s call newId := by
  have hdescribe : Handled (describe blake2b c s call newId now) ↔ _ := handled_describe_iff s now
  have hputs := putChunks_ok_iff h (nodup_callPuts c call newId) call.pin
  have hrest : CallAnswerable c s call newId ↔
      (putChunks call.pin (callPuts c call newId) s.store).1 = .ok () ∧
        Handled (describe blake2b c s call newId now) := by
    rw [hputs, hdescribe]
    constructor
    · exact fun h => ⟨h.room, h.ttl, h.tokens⟩
    · exact fun h => ⟨(hashId_ok_iff call.cacheId).mp hhash, h.1, h.2.1, h.2.2⟩
  rw [hrest]
  unfold storeCall
  rw [hhash]
  simp only [putValues]
  cases hres : (putChunks call.pin (callPuts c call newId) s.store).1 with
  | error err => simp [uncaught_of_putChunks h hres]
  | ok _ =>
      simp only [true_and]
      cases describe blake2b c s call newId now with
      | error err => simp
      | ok d => simp

theorem handled_registerValues_iff {s : ExplicitKVCache CPUBackend} (h : Accounted s.store)
    (blake2b : List UInt8 → String) (c : Conversions) (call : Call) (newId : String) (now : Time) :
    Handled (registerValues blake2b c s call newId now).1 ↔
      (call.payloads.length = (call.tokenIds.length + s.chunkSize - 1) / s.chunkSize →
        CallAnswerable c s call newId) := by
  unfold registerValues
  rw [← length_tokenSlices]
  rcases checkCounts_sequence (tokenSlices call.tokenIds s.chunkSize).length call.payloads with
    ⟨hcounts, hlength⟩ | ⟨message, hcounts, hlength⟩
  · rw [hcounts]
    simp only [hlength, true_imp_iff]
    cases hhash : hashId call.cacheId with
    | error err =>
        have hnot : ¬CallAnswerable c s call newId := by
          intro hanswerable
          have hok := (hashId_ok_iff call.cacheId).mpr hanswerable.hashable
          rw [hhash] at hok
          cases hok
        refine iff_of_false ?_ hnot
        exact not_handled_of_unhashable now hlength hhash
    | ok _ => exact handled_of_hashable h now hhash
  · rw [hcounts]
    refine iff_of_true ?_ fun heq => absurd heq hlength
    simp [isCaught]

/-! ## Plain bodies -/

theorem tokenSlices_map {α β : Type} (f : α → β) (values : List α) (size : Nat) :
    tokenSlices (values.map f) size = (tokenSlices values size).map (List.map f) := by
  simp only [tokenSlices, List.length_map, List.map_map]
  apply List.map_congr_left
  intro i _
  simp [List.map_take, List.map_drop]

theorem collect_valueBytes_int (c : Conversions) (tokens : List Int) :
    collect (valueBytes c) (tokens.map .int) = tokenRunBytes tokens := by
  induction tokens with
  | nil => rfl
  | cons token tokens ih =>
      have hhead : valueBytes c (.int token) = tokenBytes token := rfl
      rw [List.map_cons, collect, hhead, ih, tokenRunBytes]
      cases tokenBytes token with
      | error err => rfl
      | ok bytes => cases tokenRunBytes tokens <;> rfl

theorem collect_fingerprint_int (blake2b : List UInt8 → String) (c : Conversions)
    (chunks : List (List Int)) :
    collect (fingerprint blake2b c) (chunks.map (List.map .int)) = fingerprints blake2b chunks := by
  induction chunks with
  | nil => rfl
  | cons chunk chunks ih =>
      have hhead : fingerprint blake2b c (chunk.map .int) = tokenFingerprint blake2b chunk := by
        rw [fingerprint, collect_valueBytes_int, tokenFingerprint]
      rw [List.map_cons, collect, hhead, ih]
      rfl

/-- The call that a body of the documented form describes. -/
def plainCall (tokens : List Int) (payloads : List KVPayload) (cacheId : Option String)
    (ttl : Option PyFloat) (pin : Bool) (name : Option String) : Call where
  tokenIds := tokens.map .int
  payloads := payloads
  cacheId := cacheId.elim .null .str
  ttl := ttl.elim .null .float
  pin := pin
  name := name.elim .null .str

/-- On a body of the documented form the engine registers what the body says. -/
theorem registerValues_plain (blake2b : List UInt8 → String) (c : Conversions)
    (s : ExplicitKVCache σ) (tokens : List Int) (payloads : List KVPayload)
    (cacheId : Option String) (ttl : Option PyFloat) (pin : Bool) (name : Option String)
    (newId : String) (now : Time) :
    registerValues blake2b c s (plainCall tokens payloads cacheId ttl pin name) newId now =
      s.register blake2b ⟨tokens, .sequence payloads, cacheId,
        ttl.map fun seconds => .float (lifetime seconds), pin, name⟩ newId now := by
  have hid : idText c (cacheId.elim .null .str) newId = resolveId cacheId newId := by
    cases cacheId with
    | none => rfl
    | some cid => by_cases hcid : cid = "" <;> simp [idText, truthy, resolveId, hcid,
        Conversions.keyText]
  have hhash : hashId (cacheId.elim .null .str) = .ok () := by
    cases cacheId with
    | none => rfl
    | some cid => by_cases hcid : cid = "" <;> simp [hashId, truthy, requireHashable, hcid]
  have hname : nameText c (name.elim .null .str) = name := by
    cases name with
    | none => rfl
    | some text => rfl
  have hgiven : givenTtl (ttl.elim .null .float) =
      ttl.map fun seconds => .float (lifetime seconds) := by
    cases ttl <;> rfl
  have hdigests : collect (fingerprint blake2b c) (tokenSlices (tokens.map Json.int) s.chunkSize) =
      collect (tokenFingerprint blake2b) (tokenSlices tokens s.chunkSize) := by
    rw [tokenSlices_map, collect_fingerprint_int]
    rfl
  have hcount : (tokenSlices (tokens.map Json.int) s.chunkSize).length =
      (tokenSlices tokens s.chunkSize).length := by
    rw [tokenSlices_map, List.length_map]
  have hsorted : (normalizePayloads (.sequence payloads)).keys.insertionSort (· ≤ ·) = [0] := rfl
  unfold registerValues storeCall describe ExplicitKVCache.register buildDescriptor
  simp only [plainCall, callPuts, chunkTokenIds_of_pos _ s.chunkSize_pos, hid, hhash, hname,
    hgiven, hdigests, hcount, hsorted, putValues, List.length_map,
    sum_length_tokenSlices _ s.chunkSize_pos]
  cases checkCounts (tokenSlices tokens s.chunkSize).length
      (normalizePayloads (.sequence payloads)).entries with
  | error err => rfl
  | ok _ =>
      simp only
      cases (putChunks pin (chunkPuts (resolveId cacheId newId)
          (normalizePayloads (.sequence payloads))) s.store).1 with
      | error err => rfl
      | ok _ =>
          generalize Ttl.expiry now _ = deadline
          cases deadline <;>
            cases collect (tokenFingerprint blake2b) (tokenSlices tokens s.chunkSize) <;> rfl

/-! ## Every request -/

/-- A change of a cache can be answered.  The last reading of the clock finds the
cache live if the first one did. -/
def MutationAnswerable (c : Conversions) (s : ExplicitKVCache CPUBackend) (content : Content)
    (cid : String) (readings : Readings) : Action → Prop
  | .pin | .unpin => ∀ d, s.descriptors.lookup cid = some d →
      d.isExpired none readings.check = false → d.isExpired none readings.again = false
  | .ttl =>
      match content with
      | .empty | .malformed _ => True
      | .tooDeep => False
      | .json body => ∃ members, body = .obj members ∧
          ∀ value, members.lookup "ttl" = some value → (IsReal value ∨ IsText value) ∧
            ∀ seconds, toFloat c value = .ok seconds → ∀ d, s.descriptors.lookup cid = some d →
              d.isExpired none readings.check = false →
              ¬((lifetime seconds).after readings.stamp).Reached readings.again

def Answerable (c : Conversions) (s : ExplicitKVCache CPUBackend) (content : Content) :
    Post → Prop
  | .register newId _ => BodyReadable c content ∧ ∀ call, readCall c content = .ok call →
      call.payloads.length = (call.tokenIds.length + s.chunkSize - 1) / s.chunkSize →
      CallAnswerable c s call newId
  | .mutate cid action readings => MutationAnswerable c s content cid readings action

theorem refuse_ok_iff (err : Raised) :
    (∃ response, refuse err = .ok response) ↔ isCaught err = true := by
  unfold refuse
  split_ifs with h <;> simp [h]

theorem register_answered_iff {s : ExplicitKVCache CPUBackend} (h : Accounted s.store)
    (content : Content) (now : Time) :
    (∃ response, (register blake2b c s content newId now).1 = .ok response) ↔
      Answerable c s content (.register newId now) := by
  have hread := handled_readCall_iff c content
  unfold register Answerable
  rw [← hread]
  cases hcall : readCall c content with
  | error err => simp [refuse_ok_iff]
  | ok call =>
      have hregister := handled_registerValues_iff h blake2b c call newId now
      simp only [handled_ok, true_and, Except.ok.injEq, forall_eq', ← hregister]
      cases (registerValues blake2b c s call newId now).1 with
      | error err => simp [refuse_ok_iff]
      | ok d => simp

/-- The answer after a change shows the cache, if it is still live. -/
theorem mutate_ok_iff {s : ExplicitKVCache CPUBackend} {cid : String} {action : Action}
    {ttl : Except Raised Ticks} {readings : Readings} {s' : ExplicitKVCache CPUBackend}
    (hact : act s cid action ttl readings = (.ok (), s')) {d : CacheDescriptor}
    (hd : s'.descriptors.lookup cid = some d) :
    (∃ response, (mutate s cid action ttl readings).1 = .ok response) ↔
      d.isExpired none readings.again = false := by
  unfold mutate
  rw [hact]
  simp only [ExplicitKVCache.get, liveDescriptor, hd]
  cases d.isExpired none readings.again <;> simp [Except.map]

theorem mutate_of_raised {s : ExplicitKVCache CPUBackend} {cid : String} {action : Action}
    {ttl : Except Raised Ticks} {readings : Readings} {err : Raised}
    (hact : (act s cid action ttl readings).1 = .error err) :
    (∃ response, (mutate s cid action ttl readings).1 = .ok response) ↔
      isCaught err = true ∨ (∃ id, err = .cacheNotFound id) ∨ ∃ id, err = .cacheExpired id := by
  obtain ⟨s', hact⟩ : ∃ s', act s cid action ttl readings = (.error err, s') :=
    ⟨_, Prod.ext hact rfl⟩
  unfold mutate
  rw [hact]
  cases err <;> simp [isCaught]

/-- Changing the pins of a cache is answered when the cache is live twice or not at all. -/
theorem pins_answered_iff (s : ExplicitKVCache CPUBackend) (cid : String) (action : Action)
    (pinned : Bool) (ttl : Except Raised Ticks) (readings : Readings)
    (hact : ∀ d, s.descriptors.lookup cid = some d → d.isExpired none readings.check = false →
      ∃ store, act s cid action ttl readings =
        (.ok (), { s.publish cid { d with pinned := pinned } with store := store }))
    (hraise : ∀ err s', s.liveDescriptor cid readings.check = (.error err, s') →
      (act s cid action ttl readings).1 = .error err) :
    (∃ response, (mutate s cid action ttl readings).1 = .ok response) ↔
      ∀ d, s.descriptors.lookup cid = some d → d.isExpired none readings.check = false →
        d.isExpired none readings.again = false := by
  rcases Descriptors.liveDescriptor_cases s cid readings.check with
    ⟨hnone, hres⟩ | ⟨d, hd, ⟨hexpired, hres⟩ | ⟨hlive, hres⟩⟩
  · rw [mutate_of_raised (hraise _ _ hres), hnone]
    simp
  · rw [mutate_of_raised (hraise _ _ hres), hd]
    simp [hexpired]
  · obtain ⟨store, hok⟩ := hact d hd hlive
    have hfound : ({ s.publish cid { d with pinned := pinned } with store := store } :
        ExplicitKVCache CPUBackend).descriptors.lookup cid = some { d with pinned := pinned } :=
      Descriptors.lookup_publish_self s cid _
    rw [mutate_ok_iff hok hfound, hd]
    simp only [Option.some.injEq, forall_eq', hlive, true_imp_iff]
    rfl

theorem extendTtl_answered_iff (s : ExplicitKVCache CPUBackend) (cid : String) (seconds : Ticks)
    (readings : Readings) :
    (∃ response, (mutate s cid .ttl (.ok seconds) readings).1 = .ok response) ↔
      ∀ d, s.descriptors.lookup cid = some d → d.isExpired none readings.check = false →
        ¬(seconds.after readings.stamp).Reached readings.again := by
  rcases Descriptors.liveDescriptor_cases s cid readings.check with
    ⟨hnone, hres⟩ | ⟨d, hd, ⟨hexpired, hres⟩ | ⟨hlive, hres⟩⟩
  · have herr : (act s cid .ttl (.ok seconds) readings).1 = .error (.cacheNotFound cid) := by
      simp [act, extendTtl, hres, Except.map]
    rw [mutate_of_raised herr, hnone]
    simp
  · have herr : (act s cid .ttl (.ok seconds) readings).1 = .error (.cacheExpired cid) := by
      simp [act, extendTtl, hres, Except.map]
    rw [mutate_of_raised herr, hd]
    simp [hexpired]
  · have hok : act s cid .ttl (.ok seconds) readings =
        (.ok (), s.publish cid { d with expiresAt := some (seconds.after readings.stamp) }) := by
      simp [act, extendTtl, hres, Ttl.addedTo, Except.map]
    rw [mutate_ok_iff hok (Descriptors.lookup_publish_self s cid _), hd]
    simp only [Option.some.injEq, forall_eq', hlive, true_imp_iff]
    simp [CacheDescriptor.isExpired]

theorem toFloat_error_cases {c : Conversions} {value : Json} {err : Raised}
    (herr : toFloat c value = .error err) :
    (∃ message, err = .valueError message) ∨ (∃ message, err = .typeError message) ∨
      ∃ n, err = .overflowError n := by
  cases value with
  | int n =>
      simp only [toFloat] at herr
      split_ifs at herr
      exact .inr (.inr ⟨n, (Except.error.inj herr).symm⟩)
  | str text =>
      simp only [toFloat] at herr
      cases hfloat : c.float text with
      | error message =>
          rw [hfloat] at herr
          exact .inl ⟨message, (Except.error.inj herr).symm⟩
      | ok x =>
          rw [hfloat] at herr
          cases herr
  | bool value => cases herr
  | float x => cases herr
  | _ => exact .inr (.inl ⟨_, (Except.error.inj herr).symm⟩)

theorem unread_answered_iff (s : ExplicitKVCache CPUBackend) (cid : String) (readings : Readings)
    {err : Raised} (hplain : (∃ key, err = .keyError key) ∨ (∃ message, err = .valueError message) ∨
      (∃ message, err = .typeError message) ∨ ∃ n, err = .overflowError n) :
    (∃ response, (mutate s cid .ttl (.error err) readings).1 = .ok response) ↔
      isCaught err = true := by
  rw [mutate_of_raised (rfl : (act s cid .ttl (.error err) readings).1 = .error err)]
  rcases hplain with ⟨_, rfl⟩ | ⟨_, rfl⟩ | ⟨_, rfl⟩ | ⟨_, rfl⟩ <;> simp

theorem bodyTtl_missing (c : Conversions) {members : List (String × Json)}
    (h : members.lookup "ttl" = none) :
    bodyTtl c (.json (.obj members)) = .error (.keyError "ttl") := by
  simp [bodyTtl, readJson, Json.getItem, h, bind, Except.bind]

theorem bodyTtl_field (c : Conversions) {members : List (String × Json)} {value : Json}
    (h : members.lookup "ttl" = some value) :
    bodyTtl c (.json (.obj members)) = (toFloat c value).map lifetime := by
  simp only [bodyTtl, readJson, Json.getItem, h, bind, Except.bind]
  cases toFloat c value <;> rfl

theorem bodyTtl_of_no_object (c : Conversions) {body : Json} (h : ∀ members, body ≠ .obj members) :
    ∃ message, bodyTtl c (.json body) = .error (.typeError message) := by
  cases body with
  | obj members => exact absurd rfl (h members)
  | _ => exact ⟨_, rfl⟩

theorem fieldTtl_answered_iff (s : ExplicitKVCache CPUBackend) (members : List (String × Json))
    (cid : String) (readings : Readings) :
    (∃ response, (mutate s cid .ttl (bodyTtl c (.json (.obj members))) readings).1 =
        .ok response) ↔
      ∀ value, members.lookup "ttl" = some value → (IsReal value ∨ IsText value) ∧
        ∀ seconds, toFloat c value = .ok seconds → ∀ d, s.descriptors.lookup cid = some d →
          d.isExpired none readings.check = false →
          ¬((lifetime seconds).after readings.stamp).Reached readings.again := by
  cases hfield : members.lookup "ttl" with
  | none =>
      rw [bodyTtl_missing c hfield, unread_answered_iff s cid readings (.inl ⟨_, rfl⟩)]
      simp [isCaught]
  | some value =>
      simp only [Option.some.injEq, forall_eq', ← handled_toFloat_iff c]
      rw [bodyTtl_field c hfield]
      cases hfloat : toFloat c value with
      | error err =>
          have hplain := toFloat_error_cases hfloat
          simp only [Except.map, handled_error_iff, reduceCtorEq, false_imp_iff, implies_true,
            and_true]
          exact unread_answered_iff s cid readings (.inr hplain)
      | ok seconds =>
          simp only [Except.map, handled_ok, Except.ok.injEq, forall_eq', true_and]
          exact extendTtl_answered_iff s cid (lifetime seconds) readings

theorem mutate_answered_iff (s : ExplicitKVCache CPUBackend) (content : Content) (cid : String)
    (action : Action) (readings : Readings) :
    (∃ response, (mutate s cid action (bodyTtl c content) readings).1 = .ok response) ↔
      MutationAnswerable c s content cid readings action := by
  cases action with
  | pin =>
      apply pins_answered_iff s cid .pin true
      · intro d hd hlive
        simp [act, ExplicitKVCache.pin, liveDescriptor, hd, hlive]
      · intro err s' hres
        simp [act, ExplicitKVCache.pin, hres]
  | unpin =>
      apply pins_answered_iff s cid .unpin false
      · intro d hd hlive
        simp [act, ExplicitKVCache.unpin, liveDescriptor, hd, hlive]
      · intro err s' hres
        simp [act, ExplicitKVCache.unpin, hres]
  | ttl =>
      cases content with
      | empty =>
          have hmissing := unread_answered_iff s cid readings (.inl ⟨"ttl", rfl⟩)
          exact iff_of_true (hmissing.mpr rfl) trivial
      | malformed message =>
          have hmalformed := unread_answered_iff s cid readings (.inr (.inl ⟨message, rfl⟩))
          exact iff_of_true (hmalformed.mpr rfl) trivial
      | tooDeep =>
          have hdeep : ¬∃ response, (mutate s cid .ttl (.error .recursionError) readings).1 =
              .ok response := by
            rw [mutate_of_raised rfl]
            simp [isCaught]
          exact iff_of_false hdeep not_false
      | json body =>
          by_cases hobject : ∃ members, body = .obj members
          · obtain ⟨members, rfl⟩ := hobject
            rw [fieldTtl_answered_iff]
            simp [MutationAnswerable]
          · have hother := bodyTtl_of_no_object c fun members heq => hobject ⟨members, heq⟩
            obtain ⟨message, herr⟩ := hother
            rw [herr, unread_answered_iff s cid readings (.inr (.inr (.inl ⟨message, rfl⟩)))]
            refine iff_of_false (by simp [isCaught]) ?_
            rintro ⟨members, heq, _⟩
            exact hobject ⟨members, heq⟩

/-- A management request is answered exactly when it is answerable; otherwise an
exception escapes from its handler. -/
theorem posts_answered_iff (blake2b : List UInt8 → String) (c : Conversions)
    (s : ExplicitKVCache CPUBackend) {capacity : Option Nat}
    (hempty : s.store = { capacityBytes := capacity }) (ops : List EngineOp) (content : Content)
    (post : Post) :
    (∃ response, (handle blake2b c ((machine blake2b CPUBackend).exec s ops) content post).1 =
        .ok response) ↔
      Answerable c ((machine blake2b CPUBackend).exec s ops) content post := by
  have haccounted := accounted_engine blake2b hempty ops
  cases post with
  | register newId now => exact register_answered_iff haccounted content now
  | mutate cid action readings => exact mutate_answered_iff _ content cid action readings

/-- Strings that are no numbers, and two that decode. -/
def sampleConversions : Conversions where
  float _ := .error "could not convert string to float"
  int _ := .error "invalid literal for int() with base 10"
  b64decode text :=
    if text = "BwgJCg==" then .ok [7, 8, 9, 10]
    else if text = "" then .ok []
    else .error "Incorrect padding"
  text _ := "value"

/-- A registration by its body, and a lifetime for the cache it makes. -/
theorem posts_answered_iff_lifetime :
    let s : ExplicitKVCache CPUBackend := ⟨{ capacityBytes := some 4 }, 2, by decide, none, ∅⟩
    let r : Registration := ⟨[1, 2], .sequence [.ofBytes [7]], some "c", none, false, none⟩
    let reached := (machine sampleDigest CPUBackend).exec s [.register r "new" 0]
    let content : Content := .json (.obj [("ttl", .int 5)])
    let post : Post := .mutate "c" .ttl ⟨1, 1, 2⟩
    (∃ response, (handle sampleDigest sampleConversions reached content post).1 =
        .ok response) ↔
      Answerable sampleConversions reached content post := by
  intro s r reached content post
  exact posts_answered_iff sampleDigest sampleConversions s rfl [.register r "new" 0] content
    post

/-- A lifetime of zero is set, and the answer then finds the cache expired; a body
that is no object or is nested too deeply, a token outside 32 bits and a full store
end in exceptions too. -/
theorem unanswered_posts :
    let s : ExplicitKVCache CPUBackend := ⟨{ capacityBytes := some 3 }, 2, by decide, none, ∅⟩
    let r : Registration := ⟨[1, 2], .sequence [.ofBytes [7]], some "c", none, false, none⟩
    let reached := (machine sampleDigest CPUBackend).exec s [.register r "new" 0]
    let answer := fun content post =>
      (handle sampleDigest sampleConversions reached content post).1
    (¬∃ response, answer (.json (.obj [("ttl", .int 0)])) (.mutate "c" .ttl ⟨1, 1, 1⟩) =
        .ok response) ∧
      answer (.json (.obj [("ttl", .int 0)])) (.mutate "c" .ttl ⟨1, 1, 1⟩) =
        .error (.cacheExpired "c") ∧
      answer (.json (.arr [])) (.register "new" 1) =
        .error (.typeError "list indices must be integers or slices, not str") ∧
      answer .tooDeep (.mutate "c" .ttl ⟨1, 1, 1⟩) = .error .recursionError ∧
      answer (.json (.obj [("token_ids", .arr [.int 2147483648]), ("payloads", .arr [.str ""])]))
        (.register "new" 1) = .error (.overflowError 2147483648) ∧
      answer (.json (.obj [("token_ids", .arr [.int 1]), ("payloads", .arr [.str "BwgJCg=="])]))
        (.register "new" 1) =
          .error (.storageFull "object of 4 bytes exceeds capacity 3") := by
  intro s r reached answer
  have hescapes : answer (.json (.obj [("ttl", .int 0)])) (.mutate "c" .ttl ⟨1, 1, 1⟩) =
      .error (.cacheExpired "c") := by
    decide +kernel
  refine ⟨?_, hescapes, by decide +kernel⟩
  rintro ⟨response, hresponse⟩
  rw [hescapes] at hresponse
  cases hresponse

end LlmCache.Control.Posts
