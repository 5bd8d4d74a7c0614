import LlmCache.Control.Routing
import LlmCache.Control.Service
import LlmCache.Engine.Unbounded
import LlmCache.Lib.Base64

/-!
# The commands that name no cache

`list`, `stats` and `register` against the whole server.  `register` reads a
specification from a file, and encodes payloads that the file holds as texts.
-/

namespace LlmCache.Control.RegisterFile

open Errors Lib Payload LlmCache.Types Store Engine ExplicitKVCache Posts Service
open LosslessStore (view)

/-! ## The specification -/

/-- `key in value`. -/
def hasKey : Json → String → Except Raised Bool
  | .obj members, key => .ok (members.lookup key).isSome
  | .arr items, key => .ok (decide (Json.str key ∈ items))
  | .str text, key => .ok (decide (key.toList <:+: text.toList))
  | value, _ => .error (.typeError ("argument of type '" ++ typeName value ++ "' is not iterable"))

/-- `value[key] = item`. -/
def setItem : Json → String → Json → Except Raised Json
  | .obj members, key, item =>
      if (members.lookup key).isSome then
        .ok (.obj (members.map fun member => if member.1 = key then (key, item) else member))
      else .ok (.obj (members ++ [(key, item)]))
  | .arr _, _, _ => .error (.typeError "list indices must be integers or slices, not str")
  | value, _, _ =>
      .error (.typeError ("'" ++ typeName value ++ "' object does not support item assignment"))

/-- `base64.b64encode(p.encode()).decode()`. -/
def encodeEntry : Json → Except Raised Json
  | .str text => .ok (.str (String.ofList (Base64.encode (encodeUtf8 text))))
  | value =>
      .error (.attributeError ("'" ++ typeName value ++ "' object has no attribute 'encode'"))

/-- What `_cmd_register` sends for the value in the file. -/
def prepare (spec : Json) : Except Raised Json := do
  let encoded ← hasKey spec "payloads"
  if encoded then return spec
  let plain ← hasKey spec "payload_bytes"
  if !plain then return spec
  let source ← spec.getItem "payload_bytes"
  let texts ← iterate source
  let entries ← collect encodeEntry texts
  setItem spec "payloads" (.arr entries)

/-! ## Requests with a body -/

/-- `json`, and the text of the `ValueError` for a body that does not decode. -/
structure Wire where
  json : JsonText
  refusal : List UInt8 → String

/-- What `_read_json` finds in the body of a request. -/
def received (wire : Wire) (data : List UInt8) : Content :=
  if data = [] then .empty
  else
    match decodeUtf8 data >>= wire.json.loads with
    | .error .recursionError => .tooDeep
    | .error _ => .malformed (wire.refusal data)
    | .ok value => .json value

/-- The status code of an answer. -/
def codeOf : Answer → Nat
  | .status | .stats .. | .caches _ => 200
  | .single r => r.code

/-- How a command ends: with an exception of the client, with what it prints, with
`server error {code}`, or without an answer because a handler raised. -/
inductive Ended where
  | refused (err : Raised)
  | printed (answer : Answer)
  | serverError (answer : Answer)
  | unanswered (err : Raised)
deriving DecidableEq

/-- `urllib` raises an `HTTPError` for every code that is no success. -/
def ended : Except Raised Answer → Ended
  | .error err => .unanswered err
  | .ok answer =>
      if 200 ≤ codeOf answer ∧ codeOf answer < 300 then .printed answer else .serverError answer

section Ask

variable {σ : Type} [StorageBackend σ] [Reporting σ]

/-- `_request` against the engine behind the server. -/
def ask (wire : Wire) (blake2b : List UInt8 → String) (c : Conversions) (server : ServerUrl)
    (method : Method) (path : List Char) (body : Option Json) (newId : String)
    (readings : Readings) (s : ExplicitKVCache σ) : Ended × ExplicitKVCache σ :=
  match request server.text method path none with
  | .error err => (.refused err, s)
  | .ok r =>
      let content :=
        body.elim .empty fun value => received wire (encodeUtf8 (wire.json.dumps value))
      let out := respond blake2b c s ⟨r.method, r.target, content, newId, readings⟩
      (ended out.1, out.2)

def cmdList (wire : Wire) (blake2b : List UInt8 → String) (c : Conversions) (server : ServerUrl)
    (newId : String) (readings : Readings) (s : ExplicitKVCache σ) : Ended × ExplicitKVCache σ :=
  ask wire blake2b c server .get "/v1/caches".toList none newId readings s

def cmdStats (wire : Wire) (blake2b : List UInt8 → String) (c : Conversions) (server : ServerUrl)
    (newId : String) (readings : Readings) (s : ExplicitKVCache σ) : Ended × ExplicitKVCache σ :=
  ask wire blake2b c server .get "/v1/stats".toList none newId readings s

/-- `_cmd_register` on the text of the file. -/
def cmdRegister (wire : Wire) (blake2b : List UInt8 → String) (c : Conversions)
    (server : ServerUrl) (file : String) (newId : String) (readings : Readings)
    (s : ExplicitKVCache σ) : Ended × ExplicitKVCache σ :=
  match wire.json.loads file >>= prepare with
  | .error err => (.refused err, s)
  | .ok spec =>
      ask wire blake2b c server .post "/v1/caches".toList (some spec) newId readings s

end Ask

/-! ## What is sent -/

/-- The entry that stands for a text. -/
def entryOf (text : String) : Json :=
  .str (String.ofList (Base64.encode (encodeUtf8 text)))

/-- The specification with the entries for its texts. -/
def withEntries (members : List (String × Json)) (texts : List String) : List (String × Json) :=
  members ++ [("payloads", .arr (texts.map entryOf))]

theorem prepare_texts {members : List (String × Json)} {texts : List String}
    (hplain : members.lookup "payloads" = none)
    (htexts : members.lookup "payload_bytes" = some (.arr (texts.map .str))) :
    prepare (.obj members) = .ok (.obj (withEntries members texts)) := by
  have hentries : collect encodeEntry (texts.map .str) = .ok (texts.map entryOf) := by
    rw [collect_ok_iff, List.forall₂_map_left_iff, List.forall₂_map_right_iff, List.forall₂_same]
    exact fun _ _ => rfl
  simp only [prepare, hasKey, hplain, htexts, Json.getItem, iterate, hentries, setItem, bind,
    Except.bind]
  rfl

theorem wellFormed_withEntries {members : List (String × Json)} (h : (Json.obj members).WellFormed)
    (hplain : members.lookup "payloads" = none) (texts : List String) :
    (Json.obj (withEntries members texts)).WellFormed := by
  cases h with
  | obj hkeys hitems =>
      have hfresh : "payloads" ∉ members.map Prod.fst := by
        intro hmem
        obtain ⟨member, hmember, hkey⟩ := List.mem_map.mp hmem
        have hnone := List.lookup_eq_none_iff.mp hplain member hmember
        simp [hkey] at hnone
      constructor
      · rw [withEntries, List.map_append]
        exact List.nodup_append'.mpr ⟨hkeys, List.nodup_singleton _, by simpa using hfresh⟩
      · intro member hmember
        rcases List.mem_append.mp hmember with hmember | hmember
        · exact hitems member hmember
        · obtain rfl := List.mem_singleton.mp hmember
          refine .arr fun item hitem => ?_
          obtain ⟨text, _, rfl⟩ := List.mem_map.mp hitem
          exact .str _

theorem lookup_withEntries (members : List (String × Json)) (texts : List String) {key : String}
    (hkey : key ≠ "payloads") : (withEntries members texts).lookup key = members.lookup key := by
  have hmiss : (key == "payloads") = false := by simpa using hkey
  rw [withEntries, List.lookup_append]
  simp [List.lookup_cons, hmiss]

theorem lookup_payloads {members : List (String × Json)} (hplain : members.lookup "payloads" = none)
    (texts : List String) :
    (withEntries members texts).lookup "payloads" = some (.arr (texts.map entryOf)) := by
  rw [withEntries, List.lookup_append, hplain]
  rfl

theorem received_encode {wire : Wire} (hjson : wire.json.Inverts)
    (htext : ∀ value, wire.json.dumps value ≠ "") {value : Json} (h : value.WellFormed) :
    received wire (encodeUtf8 (wire.json.dumps value)) = .json value := by
  have hne : encodeUtf8 (wire.json.dumps value) ≠ [] := by
    intro hnil
    have hdecode := decodeUtf8_encodeUtf8 (wire.json.dumps value)
    have hempty := decodeUtf8_encodeUtf8 ""
    rw [hnil] at hdecode
    exact htext value (Except.ok.inj (hdecode.symm.trans hempty))
  simp only [received, if_neg hne, decodeUtf8_encodeUtf8, bind, Except.bind, hjson value h]

theorem request_collection (server : ServerUrl) (method : Method) :
    request server.text method "/v1/caches".toList none =
      .ok ⟨method, "/v1/caches".toList, none⟩ := by
  have hroot : '#' ∉ ['v', '1'] := by decide
  have hpath : "/v1/caches".toList = '/' :: (['v', '1'] ++ '/' :: "caches".toList) := by decide
  have hscheme : "http://".toList = ['h', 't', 't', 'p', ':', '/', '/'] := by decide
  have hselector : selector (server.text.rdropWhile (· = '/') ++ "/v1/caches".toList) =
      some "/v1/caches".toList := by
    rw [rstrip_server, hpath, hscheme, List.append_assoc, selector_http server.host_chars hroot]
    decide
  unfold request
  rw [hselector]
  rfl

/-! ## What is read -/

/-- The chunk that a text becomes. -/
def textPayload (layers : Int) (text : String) : KVPayload where
  data := encodeUtf8 text
  numTokens := 0
  numLayers := layers

/-- The decoder of the server is that of the standard library. -/
def DecodesBase64 (c : Conversions) : Prop :=
  ∀ text, c.b64decode text = Base64.decode text.toList

/-- The call that the specification stands for. -/
def callOf (members : List (String × Json)) (tokenIds : List Json) (payloads : List KVPayload) :
    Call where
  tokenIds := tokenIds
  payloads := payloads
  cacheId := (Json.obj members).getD "cache_id" .null
  ttl := (Json.obj members).getD "ttl" .null
  pin := truthy ((Json.obj members).getD "pin" (.bool false))
  name := (Json.obj members).getD "name" .null

variable {c : Conversions} {members : List (String × Json)} {texts : List String}

theorem getD_withEntries (members : List (String × Json)) (texts : List String) {key : String}
    (hkey : key ≠ "payloads") (default : Json) :
    (Json.obj (withEntries members texts)).getD key default =
      (Json.obj members).getD key default := by
  simp only [Json.getD, Json.getItem, lookup_withEntries members texts hkey]

theorem readPayload_entryOf (hdecode : DecodesBase64 c) (body : Json) (text : String) :
    readPayload c body (entryOf text) =
      (toInt c (body.getD "num_layers" (.int 1))).map fun layers => textPayload layers text := by
  have hdata : decode c (entryOf text) = .ok (encodeUtf8 text) := by
    rw [entryOf, decode, hdecode, String.toList_ofList, Base64.decode_encode]
    rfl
  simp only [readPayload, hdata, bind, Except.bind]
  cases toInt c (body.getD "num_layers" (.int 1)) <;> rfl

theorem collect_readPayload_iff (hdecode : DecodesBase64 c) (body : Json) (texts : List String)
    (payloads : List KVPayload) :
    collect (readPayload c body) (texts.map entryOf) = .ok payloads ↔
      texts = [] ∧ payloads = [] ∨ ∃ layers,
        toInt c (body.getD "num_layers" (.int 1)) = .ok layers ∧
          payloads = texts.map (textPayload layers) := by
  rw [collect_ok_iff, List.forall₂_map_left_iff]
  simp only [readPayload_entryOf hdecode]
  cases toInt c (body.getD "num_layers" (.int 1)) with
  | error err =>
      cases texts with
      | nil => simp
      | cons text texts => simp [List.forall₂_cons_left_iff, Except.map]
  | ok layers =>
      have hall : List.Forall₂ (fun text payload => textPayload layers text = payload) texts
          payloads ↔ payloads = texts.map (textPayload layers) := by
        rw [← List.forall₂_map_left_iff (R := fun a b => a = b), List.forall₂_eq_eq_eq, eq_comm]
      simp only [Except.map, Except.ok.injEq, hall, exists_eq_left']
      constructor
      · exact .inr
      · rintro (⟨rfl, rfl⟩ | h)
        · rfl
        · exact h

theorem readCall_ok_iff (hplain : members.lookup "payloads" = none) (call : Call) :
    readCall c (.json (.obj (withEntries members texts))) = .ok call ↔
      ∃ tokens tokenIds payloads, members.lookup "token_ids" = some tokens ∧
        iterate tokens = .ok tokenIds ∧
        collect (readPayload c (.obj (withEntries members texts))) (texts.map entryOf) =
          .ok payloads ∧
        call = callOf members tokenIds payloads := by
  have hfield : ∀ key, key ≠ "payloads" → ∀ default : Json,
      (Json.obj (withEntries members texts)).getD key default =
        (Json.obj members).getD key default := fun key hkey => getD_withEntries members texts hkey
  have hid := hfield "cache_id" (by decide)
  have httl := hfield "ttl" (by decide)
  have hpin := hfield "pin" (by decide)
  have hname := hfield "name" (by decide)
  have hentries : iterate (.arr (texts.map entryOf)) = .ok (texts.map entryOf) := rfl
  simp only [readCall, readJson, Json.getItem, lookup_payloads hplain,
    lookup_withEntries members texts (show "token_ids" ≠ "payloads" by decide), hentries, hid,
    httl, hpin, hname, bind, Except.bind]
  cases members.lookup "token_ids" with
  | none => simp
  | some tokens =>
      simp only [Option.some.injEq, exists_and_left, exists_eq_left']
      cases iterate tokens with
      | error err => simp
      | ok tokenIds =>
          simp only [Except.ok.injEq, exists_eq_left']
          cases collect (readPayload c (.obj (withEntries members texts))) (texts.map entryOf) with
          | error err => simp
          | ok payloads =>
              simp only [Except.ok.injEq, exists_eq_left', pure, Except.pure, callOf]
              exact eq_comm

/-! ## What is registered -/

theorem callPuts_eq (c : Conversions) (call : Call) (newId : String) :
    callPuts c call newId = call.payloads.zipIdx.map fun chunk =>
      (⟨idText c call.cacheId newId, chunk.2, 0⟩, chunk.1) := by
  simp [callPuts, chunkPuts, normalizePayloads]

variable {σ : Type} {blake2b : List UInt8 → String} {s : ExplicitKVCache σ} {call : Call}
  {newId : String}

theorem exists_describe_iff (s : ExplicitKVCache σ) (call : Call) (newId : String) (now : Time) :
    (∃ d, describe blake2b c s call newId now = .ok d) ↔
      LifetimeAddable s.defaultTtl call.ttl ∧
        ∀ value ∈ call.tokenIds, ∃ bytes, valueBytes c value = .ok bytes := by
  have htokens : (∃ digests, collect (fingerprint blake2b c) (tokenSlices call.tokenIds s.chunkSize) =
      .ok digests) ↔ ∀ value ∈ call.tokenIds, ∃ bytes, valueBytes c value = .ok bytes := by
    have hchunk : ∀ chunk, (∃ digest, fingerprint blake2b c chunk = .ok digest) ↔
        ∀ value ∈ chunk, ∃ bytes, valueBytes c value = .ok bytes := by
      intro chunk
      rw [← exists_collect_iff]
      unfold fingerprint
      cases collect (valueBytes c) chunk <;> simp [Except.map]
    simp only [exists_collect_iff, hchunk]
    rw [← List.forall_mem_flatten, flatten_tokenSlices call.tokenIds s.chunkSize_pos]
  rw [← htokens, ← addable_given_iff, ← Ttl.expiry_ok_iff now]
  simp only [describe, Descriptors.build_ok_iff]
  constructor
  · rintro ⟨d, expiresAt, digests, hexpiry, hdigests, _⟩
    exact ⟨⟨expiresAt, hexpiry⟩, digests, hdigests⟩
  · rintro ⟨⟨expiresAt, hexpiry⟩, digests, hdigests⟩
    exact ⟨_, expiresAt, digests, hexpiry, hdigests, rfl⟩

theorem numChunks_describe {now : Time} {d : CacheDescriptor}
    (hd : describe blake2b c s call newId now = .ok d) :
    d.cacheId = idText c call.cacheId newId ∧
      d.numChunks = (tokenSlices call.tokenIds s.chunkSize).length := by
  obtain ⟨expiresAt, digests, _, hdigests, rfl⟩ := Descriptors.build_ok_iff.mp hd
  exact ⟨rfl, (collect_ok_iff.mp hdigests).length_eq.symm⟩

section Lossless

variable [LosslessBackend σ]

theorem registerValues_of_ready {now : Time} {d : CacheDescriptor}
    (hlength : call.payloads.length = (tokenSlices call.tokenIds s.chunkSize).length)
    (hhash : hashId call.cacheId = .ok ()) (hd : describe blake2b c s call newId now = .ok d) :
    registerValues blake2b c s call newId now =
      (.ok d, ({ s with store := (putChunks call.pin (callPuts c call newId) s.store).2 } :
        ExplicitKVCache σ).publish (idText c call.cacheId newId) d) := by
  obtain ⟨hcounts, _⟩ | ⟨_, _, hne⟩ :=
    checkCounts_sequence (tokenSlices call.tokenIds s.chunkSize).length call.payloads
  · simp only [registerValues, hcounts, storeCall, hhash, putValues, Unbounded.putChunks_ok, hd]
  · exact absurd hlength hne

/-- Over a store that refuses nothing the counts, the id and the descriptor decide. -/
theorem registerValues_ok_iff {now : Time} {d : CacheDescriptor} :
    (registerValues blake2b c s call newId now).1 = .ok d ↔
      call.payloads.length = (tokenSlices call.tokenIds s.chunkSize).length ∧
        hashId call.cacheId = .ok () ∧ describe blake2b c s call newId now = .ok d := by
  constructor
  · intro hok
    obtain ⟨hcounts, hlength⟩ | ⟨message, hcounts, _⟩ :=
      checkCounts_sequence (tokenSlices call.tokenIds s.chunkSize).length call.payloads
    · simp only [registerValues, hcounts, storeCall] at hok
      cases hhash : hashId call.cacheId with
      | error err =>
          -- a chunk that is stored hashes its key, and so does the descriptor
          exfalso
          cases hputs : callPuts c call newId with
          | cons put rest => simp [hhash, hputs, putValues] at hok
          | nil =>
              simp only [hhash, hputs, putValues, putChunks] at hok
              cases hd : describe blake2b c s call newId now <;> simp [hd] at hok
      | ok _ =>
          refine ⟨hlength, rfl, ?_⟩
          simp only [hhash, putValues, Unbounded.putChunks_ok] at hok
          cases hd : describe blake2b c s call newId now with
          | error err => simp [hd] at hok
          | ok d' => simpa [hd] using hok
    · simp only [registerValues, hcounts, reduceCtorEq] at hok
  · rintro ⟨hlength, hhash, hd⟩
    rw [registerValues_of_ready hlength hhash hd]

theorem load_registered {now : Time} {d : CacheDescriptor}
    (hok : (registerValues blake2b c s call newId now).1 = .ok d) {clock : Time}
    (hlive : d.isExpired none clock = false) :
    ((registerValues blake2b c s call newId now).2.load d.cacheId none 0 clock).1 =
      .ok call.payloads := by
  obtain ⟨hlength, hhash, hd⟩ := registerValues_ok_iff.mp hok
  obtain ⟨hid, hchunks⟩ := numChunks_describe hd
  have hload : ((registerValues blake2b c s call newId now).2.load d.cacheId none 0 clock).1 =
      (loadLoop (idText c call.cacheId newId) 0 (List.range d.numChunks)
        (putChunks call.pin (callPuts c call newId) s.store).2).1 := by
    rw [registerValues_of_ready hlength hhash hd, hid]
    simp [ExplicitKVCache.load, liveDescriptor, hlive]
    rfl
  rw [hload, hchunks, ← hlength, Unbounded.loadLoop_ok_iff_view, List.forall₂_iff_get]
  refine ⟨List.length_range, fun index hrange hindex => ?_⟩
  simp only [List.get_eq_getElem, List.getElem_range]
  have hput : ∀ obj, ((⟨idText c call.cacheId newId, index, 0⟩, obj) : ChunkKey × KVPayload) ∈
      callPuts c call newId ↔ call.payloads[index]? = some obj := by
    intro obj
    simp only [callPuts_eq, List.mem_map, Prod.exists, List.mem_zipIdx_iff_getElem?, Prod.mk.injEq,
      ChunkKey.mk.injEq, Nat.cast_inj, true_and, and_true]
    constructor
    · rintro ⟨payload, i, hget, rfl, rfl⟩
      exact hget
    · exact fun hget => ⟨obj, index, hget, rfl, rfl⟩
  apply Unbounded.view_putChunks_of_mem
  · rw [hput, List.getElem?_eq_getElem]
  · intro obj hobj
    rw [hput, List.getElem?_eq_getElem hindex] at hobj
    exact (Option.some.inj hobj).symm

end Lossless

/-! ## The command -/

/-- The tokens can be read and there is a text for each of their chunks; the
number of layers and the id are of the kinds that are needed, and the lifetime can
be added to the clock. -/
structure Registrable (c : Conversions) (members : List (String × Json)) (texts : List String)
    (size : Nat) (defaultTtl : Option Ttl) : Prop where
  tokens : ∃ tokens tokenIds, members.lookup "token_ids" = some tokens ∧
    iterate tokens = .ok tokenIds ∧ texts.length = (tokenIds.length + size - 1) / size ∧
    ∀ value ∈ tokenIds, ∃ bytes, valueBytes c value = .ok bytes
  layers : texts ≠ [] →
    ∃ layers, toInt c ((Json.obj members).getD "num_layers" (.int 1)) = .ok layers
  ttl : LifetimeAddable defaultTtl ((Json.obj members).getD "ttl" .null)
  id : truthy ((Json.obj members).getD "cache_id" .null) = true →
    IsHashable ((Json.obj members).getD "cache_id" .null)

section Command

variable [LosslessBackend σ] {wire : Wire} {file : String}

theorem exists_collect_readPayload_iff (hdecode : DecodesBase64 c) (members : List (String × Json))
    (texts : List String) (payloads : List KVPayload) :
    collect (readPayload c (.obj (withEntries members texts))) (texts.map entryOf) = .ok payloads ↔
      texts = [] ∧ payloads = [] ∨ ∃ layers,
        toInt c ((Json.obj members).getD "num_layers" (.int 1)) = .ok layers ∧
          payloads = texts.map (textPayload layers) := by
  rw [collect_readPayload_iff hdecode, getD_withEntries members texts (by decide)]

theorem exists_registered_iff (hdecode : DecodesBase64 c)
    (hplain : members.lookup "payloads" = none) (newId : String) (now : Time) :
    (∃ call d, readCall c (.json (.obj (withEntries members texts))) = .ok call ∧
        (registerValues blake2b c s call newId now).1 = .ok d) ↔
      Registrable c members texts s.chunkSize s.defaultTtl := by
  simp only [readCall_ok_iff hplain, registerValues_ok_iff, hashId_ok_iff, length_tokenSlices,
    exists_collect_readPayload_iff hdecode]
  constructor
  · rintro ⟨call, d, ⟨tokens, tokenIds, payloads, htokens, hiterate, hpayloads, rfl⟩, hlength,
      hhash, hd⟩
    obtain ⟨httl, hreadable⟩ := (exists_describe_iff s _ newId now).mp ⟨d, hd⟩
    have hcount : payloads.length = texts.length := by
      rcases hpayloads with ⟨rfl, rfl⟩ | ⟨layers, _, rfl⟩
      · rfl
      · exact List.length_map _
    refine ⟨⟨tokens, tokenIds, htokens, hiterate, hcount.symm.trans hlength, hreadable⟩, ?_, httl,
      hhash⟩
    intro hne
    rcases hpayloads with ⟨hnil, _⟩ | ⟨layers, hlayers, _⟩
    · exact absurd hnil hne
    · exact ⟨layers, hlayers⟩
  · intro h
    obtain ⟨tokens, tokenIds, htokens, hiterate, hlength, hreadable⟩ := h.tokens
    obtain ⟨payloads, hpayloads, hcount⟩ : ∃ payloads : List KVPayload,
        (texts = [] ∧ payloads = [] ∨ ∃ layers,
          toInt c ((Json.obj members).getD "num_layers" (.int 1)) = .ok layers ∧
            payloads = texts.map (textPayload layers)) ∧ payloads.length = texts.length := by
      by_cases hnil : texts = []
      · exact ⟨[], .inl ⟨hnil, rfl⟩, by rw [hnil]; rfl⟩
      · obtain ⟨layers, hlayers⟩ := h.layers hnil
        exact ⟨_, .inr ⟨layers, hlayers, rfl⟩, List.length_map _⟩
    obtain ⟨d, hd⟩ : ∃ d, describe blake2b c s (callOf members tokenIds payloads) newId now =
        .ok d :=
      (exists_describe_iff s _ newId now).mpr ⟨h.ttl, hreadable⟩
    exact ⟨_, d, ⟨tokens, tokenIds, payloads, htokens, hiterate, hpayloads, rfl⟩,
      hcount.trans hlength, h.id, hd⟩

variable [Reporting σ]

theorem respond_register (blake2b : List UInt8 → String) (c : Conversions)
    (content : Posts.Content) (newId : String) (readings : Readings) (s : ExplicitKVCache σ) :
    respond blake2b c s ⟨.post, "/v1/caches".toList, content, newId, readings⟩ =
      single (Posts.register blake2b c s content newId readings.check) := by
  have hline : (requestLine .post "/v1/caches".toList).length = 26 := by decide
  have hshort : (requestLine .post "/v1/caches".toList).length ≤ maxRequestLine := by
    rw [hline]
    exact Nat.le_of_ble_eq_true rfl
  have hroute : routePost (urlPath "/v1/caches".toList) = .collection .register := by decide
  have hrouteOf : routeOf ⟨.post, "/v1/caches".toList, content, newId, readings⟩ =
      .collection .register := hroute
  unfold respond
  split_ifs with hlong
  · exact absurd hlong (Nat.not_lt.mpr hshort)
  · rw [hrouteOf, Service.handle]

theorem cmdRegister_eq (hjson : wire.json.Inverts) (htext : ∀ value, wire.json.dumps value ≠ "")
    (hfile : wire.json.loads file = .ok (.obj members)) (hwell : (Json.obj members).WellFormed)
    (hplain : members.lookup "payloads" = none)
    (htexts : members.lookup "payload_bytes" = some (.arr (texts.map .str)))
    (blake2b : List UInt8 → String) (c : Conversions) (server : ServerUrl) (newId : String)
    (readings : Readings) (s : ExplicitKVCache σ) :
    let out := Posts.register blake2b c s (.json (.obj (withEntries members texts))) newId
      readings.check
    cmdRegister wire blake2b c server file newId readings s =
      (ended (out.1.map .single), out.2) := by
  have hspec : wire.json.loads file >>= prepare = .ok (.obj (withEntries members texts)) := by
    rw [hfile]
    exact prepare_texts hplain htexts
  have hreceived := received_encode hjson htext (wellFormed_withEntries hwell hplain texts)
  unfold cmdRegister ask
  rw [hspec, request_collection]
  simp only [Option.elim, hreceived, respond_register, single]

theorem ended_refuse (err : Raised) (answer : Answer) :
    ended ((refuse err).map .single) ≠ .printed answer := by
  unfold refuse
  split_ifs
  · simp [Except.map, ended, codeOf]
  · simp [Except.map, ended]

end Command

/-- A cache of one chunk, as a file describes it. -/
def greeting : List (String × Json) :=
  [("cache_id", .str "a"), ("token_ids", .arr [.int 1, .int 2]),
    ("payload_bytes", .arr [.str "hi"])]

def greetingFile : String :=
  "\x7b\"cache_id\": \"a\", \"token_ids\": [1, 2], \"payload_bytes\": [\"hi\"]\x7d"

def greetingSent : String :=
  "\x7b\"cache_id\": \"a\", \"token_ids\": [1, 2], \"payload_bytes\": [\"hi\"], " ++
    "\"payloads\": [\"aGk=\"]\x7d"

/-- The two specifications have their texts, other values have texts of their own. -/
def greetingText (value : Json) : String :=
  if value = .obj greeting then greetingFile
  else if value = .obj (withEntries greeting ["hi"]) then greetingSent
  else String.ofList ('#' :: List.replicate value.code '#')

theorem greetingText_injective : Function.Injective greetingText := by
  have hmark : ∀ (known : String) (n : Nat), known.toList.head? = some '\x7b' →
      known ≠ String.ofList ('#' :: List.replicate n '#') := by
    intro known n hknown heq
    rw [heq, String.toList_ofList] at hknown
    simp at hknown
  have hsent : greetingFile ≠ greetingSent := by decide
  intro v w h
  unfold greetingText at h
  split_ifs at h with hv hw hw' hv' hw hw' hw hw'
  · rw [hv, hw]
  · exact absurd h hsent
  · exact absurd h (hmark _ _ rfl)
  · exact absurd h.symm hsent
  · rw [hv', hw']
  · exact absurd h (hmark _ _ rfl)
  · exact absurd h.symm (hmark _ _ rfl)
  · exact absurd h.symm (hmark _ _ rfl)
  · apply Json.code_inj
    have hlength := congrArg List.length (String.ofList_injective h)
    simpa using hlength

noncomputable def greetingWire : Wire where
  json := { dumps := greetingText, loads := fun text => .ok (Function.invFun greetingText text) }
  refusal _ := "Expecting value: line 1 column 1 (char 0)"

/-- The conversions with the decoder of the standard library. -/
def greetingConversions : Conversions :=
  { sampleConversions with b64decode := fun text => Base64.decode text.toList }

end LlmCache.Control.RegisterFile
