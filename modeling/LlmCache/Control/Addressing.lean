import LlmCache.Control.Calls
import LlmCache.Control.Routing
import LlmCache.Engine.Isolation

/-!
# Which cache a command reaches

A command acts on the cache it names, or is refused, unless its id reads as the
name of another cache followed by something that is cut off.
-/

namespace LlmCache.Control

open Errors Lib Payload LlmCache.Types Store Engine ExplicitKVCache Descriptors Isolation
  KeyedStore

namespace Command

/-- The call that the command asks for. -/
def call (cmd : Command) (cacheId : String) : CacheCall :=
  match cmd with
  | .get => .inspect cacheId
  | .pin => .mutate cacheId .pin
  | .unpin => .mutate cacheId .unpin
  | .ttl _ => .mutate cacheId .ttl
  | .delete => .delete cacheId

/-- The characters at which a name ends; a `/` may stand in front of an action. -/
def marks : Command → List Char
  | .get | .delete => ['/', '?', '#', ';']
  | .pin | .unpin | .ttl _ => ['?', '#']

/-- What may follow a name: nothing, or an action.  A lifetime is only set by a
command that brings one. -/
def endings : Command → List (List Char)
  | .get | .delete => [[]]
  | .pin | .unpin => ["/pin".toList, "/unpin".toList]
  | .ttl _ => ["/pin".toList, "/unpin".toList, "/ttl".toList]

end Command

/-- The id begins with a name of its own, and what follows the name and its
ending is dropped. -/
def Misread (cmd : Command) (cacheId : String) : Prop :=
  ∃ name ending rest, name ≠ [] ∧ (∀ c ∈ name, isGraphic c ∧ c ∉ cmd.marks) ∧
    ending ∈ cmd.endings ∧ cacheId.toList = name ++ ending ++ rest ∧
    Dropped (rest ++ cmd.suffix)

/-- The client sends the request, and the server reads its first line. -/
def Accepted (cmd : Command) (cacheId : String) : Prop :=
  Sendable cmd cacheId ∧
    (requestLine cmd.method (cachesPrefix ++ sent cmd cacheId)).length ≤ maxRequestLine

/-- The command is refused whatever its id is taken for, or the id is not read
as another name. -/
def KeepsName (cmd : Command) (cacheId : String) : Prop :=
  ¬Accepted cmd cacheId ∨ ¬Misread cmd cacheId

variable {σ : Type} [StorageBackend σ]

/-- What the command asks of the engine, under the id that it names. -/
def direct (cmd : Command) (cacheId : String) (s : ExplicitKVCache σ) (readings : Readings) :
    Outcome × ExplicitKVCache σ :=
  let out := perform s (cmd.call cacheId) cmd.body readings
  (.served out.1, out.2)

/-- Nothing was done: the client raises, or the answer is an error that no engine
call gives. -/
def Refused : Outcome → Prop
  | .refused _ => True
  | .served (.ok response) => response.code = 400 ∨ response.code = 404 ∨ response.code = 414
  | .served (.error _) => False

/-- The states that clients can bring about under ids that `register` takes. -/
def Reachable (blake2b : List UInt8 → String) (start s : ExplicitKVCache σ) : Prop :=
  ∃ ops, (∀ op ∈ ops, callId op ≠ some "") ∧ s = (ExplicitKVCache.machine blake2b σ).exec start ops

/-- A command for one cache acts on that cache or is refused, and neither reads,
changes nor deletes another one. -/
structure Confined (blake2b : List UInt8 → String) (collection : Collection → ExplicitKVCache σ →
      Except Raised Response × ExplicitKVCache σ) (start : ExplicitKVCache σ)
    (server : ServerUrl) (cmd : Command) (a b : String) : Prop where
  acts : ∀ s, Reachable blake2b start s → ∀ readings,
    run collection server cmd a s readings = direct cmd a s readings ∨
      (Refused (run collection server cmd a s readings).1 ∧
        (run collection server cmd a s readings).2 = s)
  unread : ∀ s s', Reachable blake2b start s → Reachable blake2b start s' →
    (∀ k, k ≠ b → s'.descriptors.lookup k = s.descriptors.lookup k) → ∀ readings,
      (run collection server cmd a s' readings).1 = (run collection server cmd a s readings).1
  unchanged : ∀ s, Reachable blake2b start s → ∀ readings,
    (run collection server cmd a s readings).2.descriptors.lookup b = s.descriptors.lookup b ∧
      ∃ calls : List (Op ChunkKey KVPayload),
        (∀ op ∈ calls, ∃ key, op.key = some key ∧ key.cacheId ≠ b) ∧
          (run collection server cmd a s readings).2.store =
            (KeyedStore.machine σ).exec s.store calls

variable (collection : Collection → ExplicitKVCache σ →
      Except Raised Response × ExplicitKVCache σ) (server : ServerUrl) {cmd : Command} {a : String}

/-! ## How a command ends -/

theorem run_of_sendable (h : Sendable cmd a) (s : ExplicitKVCache σ) (readings : Readings) :
    run collection server cmd a s readings =
      (.served (serve collection s ⟨cmd.method, cachesPrefix ++ sent cmd a, cmd.body⟩ readings).1,
        (serve collection s ⟨cmd.method, cachesPrefix ++ sent cmd a, cmd.body⟩ readings).2) := by
  unfold run
  rw [request_of_sendable h]

theorem run_of_not_accepted (h : ¬Accepted cmd a) :
    ∃ outcome, Refused outcome ∧ ∀ (s : ExplicitKVCache σ) (readings : Readings),
      run collection server cmd a s readings = (outcome, s) := by
  by_cases hsend : Sendable cmd a
  · have hlong : maxRequestLine <
        (requestLine cmd.method (cachesPrefix ++ sent cmd a)).length := by
      rw [← Nat.not_le]
      exact fun hle => h ⟨hsend, hle⟩
    refine ⟨.served (.ok ⟨414, .uriTooLong⟩), .inr (.inr rfl), fun s readings => ?_⟩
    rw [run_of_sendable collection server hsend]
    unfold serve
    rw [if_pos hlong]
  · obtain ⟨err, herr⟩ := request_of_not_sendable hsend server
    refine ⟨.refused err, trivial, fun s readings => ?_⟩
    unfold run
    rw [herr]

theorem run_of_notFound (h : Accepted cmd a)
    (hroute : route ⟨cmd.method, cachesPrefix ++ sent cmd a, cmd.body⟩ = .notFound)
    (s : ExplicitKVCache σ) (readings : Readings) :
    run collection server cmd a s readings = (.served (.ok ⟨404, .notFound⟩), s) := by
  rw [run_of_sendable collection server h.1]
  unfold serve
  rw [if_neg (Nat.not_lt.mpr h.2), hroute]

theorem run_of_call (h : Accepted cmd a) {call : CacheCall}
    (hroute : route ⟨cmd.method, cachesPrefix ++ sent cmd a, cmd.body⟩ = .call call)
    (s : ExplicitKVCache σ) (readings : Readings) :
    run collection server cmd a s readings =
      (.served (perform s call cmd.body readings).1, (perform s call cmd.body readings).2) := by
  rw [run_of_sendable collection server h.1]
  unfold serve
  rw [if_neg (Nat.not_lt.mpr h.2), hroute]

/-! ## Which call a command makes -/

/-- The path that the server finds behind the prefix. -/
def named (cmd : Command) (cacheId : String) : List Char :=
  urlPath (rstrip (cacheId.toList ++ cmd.suffix))

theorem route_of_urlPath {r : Request} {path : List Char} (h : urlPath r.target = path) :
    route r =
      match r.method with
      | .get => routeGet path
      | .post => routePost path
      | .delete => routeDelete path := by
  subst h
  unfold route
  cases r.method <;> rfl

theorem route_sent (cmd : Command) (a : String) :
    route ⟨cmd.method, cachesPrefix ++ sent cmd a, cmd.body⟩ =
      match cmd.method with
      | .get => routeGet (cachesPrefix ++ named cmd a)
      | .post => routePost (cachesPrefix ++ named cmd a)
      | .delete => routeDelete (cachesPrefix ++ named cmd a) :=
  route_of_urlPath (urlPath_sent cmd a)

theorem mem_endings {ending : List Char} (h : ending ∈ cmd.endings) :
    (ending = [] ∧ cmd.suffix = [] ∧ cmd.method ≠ .post) ∨
      ∃ action, (ending, action) ∈ actions ∧ cmd.method = .post ∧
        (action = .ttl → cmd.body.isSome) := by
  cases cmd with
  | get => exact .inl ⟨List.mem_singleton.mp h, rfl, by decide⟩
  | delete => exact .inl ⟨List.mem_singleton.mp h, rfl, by decide⟩
  | pin =>
      simp only [Command.endings, List.mem_cons, List.not_mem_nil, or_false] at h
      rcases h with rfl | rfl
      · exact .inr ⟨.pin, by decide⟩
      · exact .inr ⟨.unpin, by decide⟩
  | unpin =>
      simp only [Command.endings, List.mem_cons, List.not_mem_nil, or_false] at h
      rcases h with rfl | rfl
      · exact .inr ⟨.pin, by decide⟩
      · exact .inr ⟨.unpin, by decide⟩
  | ttl seconds =>
      simp only [Command.endings, List.mem_cons, List.not_mem_nil, or_false] at h
      rcases h with rfl | rfl | rfl
      · exact .inr ⟨.pin, by decide, rfl, fun _ => rfl⟩
      · exact .inr ⟨.unpin, by decide, rfl, fun _ => rfl⟩
      · exact .inr ⟨.ttl, by decide, rfl, fun _ => rfl⟩

theorem not_isSpace_of_isGraphic {c : Char} (h : isGraphic c) : ¬isSpace c := by
  simp only [isGraphic, Bool.and_eq_true, decide_eq_true_eq] at h
  simp only [isSpace, Bool.or_eq_true, Bool.and_eq_true, decide_eq_true_eq]
  omega

variable {name ending : List Char}

theorem isPathChar_of_notMem_marks {c : Char} (h : c ∉ cmd.marks) : isPathChar c := by
  have hmarks : '?' ∈ cmd.marks ∧ '#' ∈ cmd.marks := by cases cmd <;> simp [Command.marks]
  simp only [isPathChar, ne_eq, Bool.and_eq_true, decide_eq_true_eq]
  constructor
  · rintro rfl
    exact h hmarks.1
  · rintro rfl
    exact h hmarks.2

theorem barePath_of_name (hname : ∀ c ∈ name, isGraphic c ∧ c ∉ cmd.marks)
    (hending : ending ∈ cmd.endings) : BarePath (name ++ ending) := by
  rcases mem_endings hending with ⟨rfl, hsuffix, _⟩ | ⟨action, haction, _⟩
  · have hmarks : cmd.marks = ['/', '?', '#', ';'] := by cases cmd <;> first | rfl | cases hsuffix
    have hslash : '/' ∉ name := fun h => (hname _ h).2 (by simp [hmarks])
    have hparams : ∀ c ∈ name, decide (c ≠ ';') = true := by
      intro c hc
      rw [decide_eq_true_eq]
      rintro rfl
      exact (hname _ hc).2 (by simp [hmarks])
    rw [List.append_nil]
    exact ⟨fun c hc => isPathChar_of_notMem_marks (hname c hc).2, by
      rw [dropParams_of_notMem hslash, List.takeWhile_eq_self_iff.mpr hparams]⟩
  · obtain ⟨word, rfl, _, hword, hchars⟩ := actions_cases haction
    refine ⟨fun c hc => ?_, by rw [dropParams_append, hword]⟩
    rcases List.mem_append.mp hc with hc | hc
    · exact isPathChar_of_notMem_marks (hname c hc).2
    · exact (hchars c hc).1

theorem not_isSpace_of_name (hname : ∀ c ∈ name, isGraphic c ∧ c ∉ cmd.marks)
    (hending : ending ∈ cmd.endings) : ∀ c ∈ name ++ ending, ¬isSpace c := by
  intro c hc
  rcases List.mem_append.mp hc with hc | hc
  · exact not_isSpace_of_isGraphic (hname c hc).1
  · rcases mem_endings hending with ⟨rfl, _⟩ | ⟨action, haction, _⟩
    · cases hc
    · obtain ⟨word, rfl, _, _, hchars⟩ := actions_cases haction
      exact (hchars c hc).2.2

/-- The calls that do something to the named cache. -/
inductive Effective (name : String) : Command → CacheCall → Prop
  | inspect : Effective name .get (.inspect name)
  | delete : Effective name .delete (.delete name)
  | mutate {cmd : Command} {action : Action} (hpost : cmd.method = .post)
      (hbody : action = .ttl → cmd.body.isSome) : Effective name cmd (.mutate name action)

theorem route_of_named (hne : name ≠ []) (hname : ∀ c ∈ name, c ∉ cmd.marks)
    (hending : ending ∈ cmd.endings) (hnamed : named cmd a = name ++ ending) :
    ∃ call, Effective (String.ofList name) cmd call ∧
      route ⟨cmd.method, cachesPrefix ++ sent cmd a, cmd.body⟩ = .call call := by
  rw [route_sent, hnamed]
  rcases mem_endings hending with ⟨rfl, hsuffix, _⟩ | ⟨action, haction, hpost, hbody⟩
  · have hslash : '/' ∈ cmd.marks → ¬('/' ∈ name ∨ name = []) := by
      rintro hmark (h | h)
      · exact hname _ h hmark
      · exact hne h
    rw [List.append_nil]
    cases cmd with
    | get =>
        exact ⟨_, .inspect, by rw [Command.method, routeGet_append, if_neg (hslash (by decide))]⟩
    | delete =>
        exact ⟨_, .delete, by rw [Command.method, routeDelete_append, if_neg (hslash (by decide))]⟩
    | pin => cases hsuffix
    | unpin => cases hsuffix
    | ttl => cases hsuffix
  · exact ⟨_, .mutate hpost hbody, by rw [hpost]; exact routePost_of_suffix haction name⟩

/-- A misread id makes a call for another cache. -/
theorem route_of_misread (h : Misread cmd a) :
    ∃ name call, name ≠ "" ∧ name ≠ a ∧ Effective name cmd call ∧
      route ⟨cmd.method, cachesPrefix ++ sent cmd a, cmd.body⟩ = .call call := by
  obtain ⟨name, ending, rest, hne, hname, hending, ha, hdropped⟩ := h
  have hnamed : named cmd a = name ++ ending := by
    rw [named, ha, List.append_assoc (name ++ ending)]
    exact urlPath_rstrip (barePath_of_name hname hending) (by simp [hne])
      (not_isSpace_of_name hname hending) hdropped
  obtain ⟨call, hcall, hroute⟩ :=
    route_of_named hne (fun c hc => (hname c hc).2) hending hnamed
  refine ⟨String.ofList name, call, by simpa using hne, ?_, hcall, hroute⟩
  rintro rfl
  rw [String.toList_ofList, List.append_assoc, List.self_eq_append_right,
    List.append_eq_nil_iff] at ha
  obtain ⟨rfl, rfl⟩ := ha
  rcases mem_endings hending with ⟨_, hsuffix, _⟩ | ⟨action, haction, _⟩
  · rw [hsuffix] at hdropped
    exact absurd hdropped not_dropped_nil
  · revert haction
    cases action <;> decide

theorem not_dropped_of_suffix {u rest : List Char} (hsuffix : cmd.suffix = u ++ rest) :
    ¬Dropped rest := by
  intro hdropped
  obtain ⟨c, hc, hdrop⟩ : ∃ c ∈ rest, isSpace c ∨ isPathChar c = false ∨ c = ';' := by
    cases rest with
    | nil => exact absurd hdropped not_dropped_nil
    | cons c more =>
        refine ⟨c, List.mem_cons_self, ?_⟩
        rcases hdropped with (rfl | rfl | ⟨h, _⟩) | ⟨_, hblank⟩
        · exact .inr (.inl (by decide))
        · exact .inr (.inl (by decide))
        · exact .inr (.inr h)
        · exact .inl (hblank c List.mem_cons_self)
  have hmem : c ∈ cmd.suffix := by
    rw [hsuffix]
    exact List.mem_append_right _ hc
  rcases suffix_cases cmd with hnil | ⟨action, haction⟩
  · rw [hnil] at hmem
    cases hmem
  · obtain ⟨word, hword, _, _, hchars⟩ := actions_cases haction
    obtain ⟨hpath, hparam, hspace⟩ := hchars c (hword ▸ hmem)
    rcases hdrop with h | h | h
    · exact hspace h
    · rw [hpath] at h
      cases h
    · exact hparam h

theorem isGraphic_of_mem_named (h : Sendable cmd a) : ∀ c ∈ named cmd a, isGraphic c := by
  obtain ⟨_, rest, hrest, _⟩ := urlPath_spec (sent cmd a)
  rw [sent, urlPath_beforeTag] at hrest
  intro c hc
  apply h
  rw [sent, hrest]
  exact List.mem_append_left _ hc

theorem route_of_action (hpost : cmd.method = .post)
    (hnamed : named cmd a = a.toList ++ cmd.suffix) :
    route ⟨cmd.method, cachesPrefix ++ sent cmd a, cmd.body⟩ = .call (cmd.call a) := by
  rw [route_sent, hnamed]
  cases cmd with
  | get => cases hpost
  | delete => cases hpost
  | pin =>
      have haction : ("/pin".toList, Action.pin) ∈ actions := by decide
      exact (routePost_of_suffix haction _).trans (by rw [String.ofList_toList]; rfl)
  | unpin =>
      have haction : ("/unpin".toList, Action.unpin) ∈ actions := by decide
      exact (routePost_of_suffix haction _).trans (by rw [String.ofList_toList]; rfl)
  | ttl =>
      have haction : ("/ttl".toList, Action.ttl) ∈ actions := by decide
      exact (routePost_of_suffix haction _).trans (by rw [String.ofList_toList]; rfl)

/-- The ways in which an id that can be sent is read. -/
inductive Reading (cmd : Command) (a : String) : Route → Prop
  | notFound : Reading cmd a .notFound
  | itself : Reading cmd a (.call (cmd.call a))
  | nameless (action : Action) : Reading cmd a (.call (.mutate "" action))
  | bodyless (name : String) (hbody : cmd.body = none) : Reading cmd a (.call (.mutate name .ttl))
  | other (r : Route) (h : Misread cmd a) : Reading cmd a r

theorem reading_of_item (hitem : cmd.endings = [[]]) (hmarks : cmd.marks = ['/', '?', '#', ';'])
    (hsuffix : cmd.suffix = []) (hsend : Sendable cmd a) (hne : named cmd a ≠ [])
    (hslash : '/' ∉ named cmd a) : named cmd a = a.toList ∨ Misread cmd a := by
  obtain ⟨rest, htext, hrest⟩ := exists_rest (a.toList ++ cmd.suffix)
  obtain ⟨hbare, _⟩ := urlPath_spec (rstrip (a.toList ++ cmd.suffix))
  rw [← named] at htext hbare
  rw [hsuffix, List.append_nil] at htext
  rcases hrest with rfl | hdropped
  · left
    rw [htext, List.append_nil]
  · right
    have hparams : (named cmd a).takeWhile (· ≠ ';') = named cmd a := by
      rw [← dropParams_of_notMem hslash, hbare.no_params]
    refine ⟨named cmd a, [], rest, hne, fun c hc => ⟨isGraphic_of_mem_named hsend c hc, ?_⟩,
      by rw [hitem]; exact List.mem_singleton.mpr rfl, by rw [List.append_nil]; exact htext,
      by rw [hsuffix, List.append_nil]; exact hdropped⟩
    have hpath := hbare.chars c hc
    have hparam := List.takeWhile_eq_self_iff.mp hparams c hc
    simp only [isPathChar, ne_eq, Bool.and_eq_true, decide_eq_true_eq] at hpath hparam
    simp only [hmarks, List.mem_cons, List.not_mem_nil, or_false, not_or]
    refine ⟨?_, hpath.1, hpath.2, hparam⟩
    rintro rfl
    exact hslash hc

theorem reading_of_action (hmarks : cmd.marks = ['?', '#']) (hsend : Sendable cmd a)
    {c : List Char} (hne : c ≠ []) (hending : ending ∈ cmd.endings)
    (hnamed : named cmd a = c ++ ending) :
    named cmd a = a.toList ++ cmd.suffix ∨ Misread cmd a := by
  obtain ⟨rest, htext, hrest⟩ := exists_rest (a.toList ++ cmd.suffix)
  obtain ⟨hbare, _⟩ := urlPath_spec (rstrip (a.toList ++ cmd.suffix))
  rw [← named] at htext hbare
  rcases hrest with rfl | hdropped
  · left
    rw [htext, List.append_nil]
  · right
    -- what is dropped begins inside the id
    rcases List.append_eq_append_iff.mp htext with ⟨u, _, hsuffix⟩ | ⟨u, ha, hsuffix⟩
    · exact absurd hdropped (not_dropped_of_suffix hsuffix)
    · refine ⟨c, ending, u, hne, fun x hx => ?_, hending, by rw [ha, hnamed],
        by rw [← hsuffix]; exact hdropped⟩
      have hmem : x ∈ named cmd a := by
        rw [hnamed]
        exact List.mem_append_left _ hx
      have hpath := hbare.chars x hmem
      simp only [isPathChar, ne_eq, Bool.and_eq_true, decide_eq_true_eq] at hpath
      refine ⟨isGraphic_of_mem_named hsend x hmem, ?_⟩
      simpa only [hmarks, List.mem_cons, List.not_mem_nil, or_false, not_or] using hpath

theorem reading_get (hsend : Sendable .get a) :
    Reading .get a (routeGet (cachesPrefix ++ named .get a)) := by
  rw [routeGet_append]
  split_ifs with hname
  · exact .notFound
  · obtain ⟨hslash, hne⟩ := not_or.mp hname
    rcases reading_of_item rfl rfl rfl hsend hne hslash with hwhole | hmisread
    · rw [hwhole, String.ofList_toList]
      exact .itself
    · exact .other _ hmisread

theorem reading_delete (hsend : Sendable .delete a) :
    Reading .delete a (routeDelete (cachesPrefix ++ named .delete a)) := by
  rw [routeDelete_append]
  split_ifs with hname
  · exact .notFound
  · obtain ⟨hslash, hne⟩ := not_or.mp hname
    rcases reading_of_item rfl rfl rfl hsend hne hslash with hwhole | hmisread
    · rw [hwhole, String.ofList_toList]
      exact .itself
    · exact .other _ hmisread

theorem mem_endings_of_action (hpost : cmd.method = .post) {action : Action}
    (haction : (ending, action) ∈ actions) :
    ending ∈ cmd.endings ∨ (action = .ttl ∧ cmd.body = none) := by
  simp only [actions_eq, List.mem_cons, Prod.mk.injEq, List.not_mem_nil, or_false] at haction
  rcases haction with ⟨rfl, rfl⟩ | ⟨rfl, rfl⟩ | ⟨rfl, rfl⟩
  · left
    cases cmd with
    | get => cases hpost
    | delete => cases hpost
    | pin => exact List.mem_cons_self
    | unpin => exact List.mem_cons_self
    | ttl => exact List.mem_cons_self
  · left
    cases cmd with
    | get => cases hpost
    | delete => cases hpost
    | pin => exact List.mem_cons_of_mem _ List.mem_cons_self
    | unpin => exact List.mem_cons_of_mem _ List.mem_cons_self
    | ttl => exact List.mem_cons_of_mem _ List.mem_cons_self
  · cases cmd with
    | get => cases hpost
    | delete => cases hpost
    | pin => exact .inr ⟨rfl, rfl⟩
    | unpin => exact .inr ⟨rfl, rfl⟩
    | ttl => exact .inl (List.mem_cons_of_mem _ (List.mem_cons_of_mem _ List.mem_cons_self))

theorem reading_post (hpost : cmd.method = .post) (hmarks : cmd.marks = ['?', '#'])
    (hsend : Sendable cmd a) :
    Reading cmd a (route ⟨cmd.method, cachesPrefix ++ sent cmd a, cmd.body⟩) := by
  have hroute : route ⟨cmd.method, cachesPrefix ++ sent cmd a, cmd.body⟩ =
      routePost (cachesPrefix ++ named cmd a) := by rw [route_sent, hpost]
  rcases routePost_cases (named cmd a) with
    hnone | ⟨ending, action, c, haction, hc, hcall⟩
  · rw [hroute, hnone]
    exact .notFound
  · by_cases hne : c = []
    · rw [hroute, hcall, hne]
      exact .nameless action
    · have hnamed : named cmd a = c ++ ending := hc.resolve_left hne
      rcases mem_endings_of_action hpost haction with hending | ⟨rfl, hbody⟩
      · rcases reading_of_action hmarks hsend hne hending hnamed with hwhole | hmisread
        · rw [route_of_action hpost hwhole]
          exact .itself
        · exact .other _ hmisread
      · rw [hroute, hcall]
        exact .bodyless _ hbody

theorem reading (hsend : Sendable cmd a) :
    Reading cmd a (route ⟨cmd.method, cachesPrefix ++ sent cmd a, cmd.body⟩) := by
  cases cmd with
  | get => rw [route_sent]; exact reading_get hsend
  | delete => rw [route_sent]; exact reading_delete hsend
  | pin => exact reading_post rfl rfl hsend
  | unpin => exact reading_post rfl rfl hsend
  | ttl => exact reading_post rfl rfl hsend

/-! ## Commands that keep their name -/

theorem lookup_of_reachable {blake2b : List UInt8 → String} {start s : ExplicitKVCache σ}
    (hempty : start.descriptors = ∅) (h : Reachable blake2b start s) :
    s.descriptors.lookup "" = none := by
  obtain ⟨ops, hops, rfl⟩ := h
  have hstart : start.descriptors.lookup "" = none := by
    rw [hempty]
    rfl
  generalize start = s at hstart
  induction ops generalizing s with
  | nil => exact hstart
  | cons op ops ih =>
      apply ih (fun op' hop' => hops op' (List.mem_cons_of_mem _ hop'))
      exact lookup_step_none (hops op List.mem_cons_self) hstart

theorem mutate_of_absent (cid : String) (action : Action) (ttl : Option Ticks) :
    ∃ response : Response, (response.code = 400 ∨ response.code = 404) ∧
      ∀ (s : ExplicitKVCache σ) (readings : Readings), s.descriptors.lookup cid = none →
        perform s (.mutate cid action) ttl readings = (.ok response, s) := by
  have hlive : ∀ (s : ExplicitKVCache σ) clock, s.descriptors.lookup cid = none →
      s.liveDescriptor cid clock = (.error (.cacheNotFound cid), s) := by
    intro s clock hnone
    simp [liveDescriptor, hnone]
  cases action with
  | pin =>
      refine ⟨⟨404, .missing cid⟩, .inr rfl, fun s readings hnone => ?_⟩
      simp only [perform, mutate, act, ExplicitKVCache.pin, hlive s _ hnone]
  | unpin =>
      refine ⟨⟨404, .missing cid⟩, .inr rfl, fun s readings hnone => ?_⟩
      simp only [perform, mutate, act, ExplicitKVCache.unpin, hlive s _ hnone]
  | ttl =>
      cases ttl with
      | none => exact ⟨⟨400, .invalid (.keyError "ttl")⟩, .inl rfl, fun _ _ _ => rfl⟩
      | some seconds =>
          refine ⟨⟨404, .missing cid⟩, .inr rfl, fun s readings hnone => ?_⟩
          simp only [perform, mutate, act, readTtl, ExplicitKVCache.extendTtl, hlive s _ hnone,
            Except.map]

/-- Unless its id is misread, a command calls the engine for that id, or is
refused whatever the engine holds. -/
theorem run_of_keepsName (h : KeepsName cmd a) :
    (∀ (s : ExplicitKVCache σ) readings,
        run collection server cmd a s readings = direct cmd a s readings) ∨
      ∃ outcome, Refused outcome ∧ ∀ (s : ExplicitKVCache σ) readings,
        s.descriptors.lookup "" = none → run collection server cmd a s readings = (outcome, s) := by
  by_cases haccepted : Accepted cmd a
  · have hmisread : ¬Misread cmd a := h.resolve_left (not_not_intro haccepted)
    have hreading := reading haccepted.1
    generalize hroute : route ⟨cmd.method, cachesPrefix ++ sent cmd a, cmd.body⟩ = r at hreading
    cases hreading with
    | notFound =>
        right
        refine ⟨.served (.ok ⟨404, .notFound⟩), .inr (.inl rfl), fun s readings _ => ?_⟩
        exact run_of_notFound collection server haccepted hroute s readings
    | itself =>
        left
        intro s readings
        exact run_of_call collection server haccepted hroute s readings
    | nameless action =>
        obtain ⟨response, hcode, hresponse⟩ := mutate_of_absent (σ := σ) "" action cmd.body
        right
        refine ⟨.served (.ok response), hcode.imp_right .inl, fun s readings hnone => ?_⟩
        rw [run_of_call collection server haccepted hroute, hresponse s readings hnone]
    | bodyless name hbody =>
        right
        refine ⟨.served (.ok ⟨400, .invalid (.keyError "ttl")⟩), .inl rfl, fun s readings _ => ?_⟩
        rw [run_of_call collection server haccepted hroute, hbody]
        rfl
    | other _ hother => exact absurd hother hmisread
  · obtain ⟨outcome, hrefused, hrun⟩ := run_of_not_accepted collection server haccepted
    exact .inr ⟨outcome, hrefused, fun s readings _ => hrun s readings⟩

theorem cacheId_call (cmd : Command) (a : String) : (cmd.call a).cacheId = a := by
  cases cmd <;> rfl

theorem confined_of_keepsName {blake2b : List UInt8 → String} {start : ExplicitKVCache σ}
    (hempty : start.descriptors = ∅) (h : KeepsName cmd a) {b : String} (hb : b ≠ a) :
    Confined blake2b collection start server cmd a b := by
  rcases run_of_keepsName collection server h with
    hdirect | ⟨outcome, hrefused, hrun⟩
  · constructor
    · intro s _ readings
      exact .inl (hdirect s readings)
    · intro s s' _ _ hsame readings
      have hlookup : s'.descriptors.lookup (cmd.call a).cacheId =
          s.descriptors.lookup (cmd.call a).cacheId := by
        rw [cacheId_call]
        exact hsame a hb.symm
      rw [hdirect, hdirect]
      exact congrArg Outcome.served (perform_congr hlookup cmd.body readings)
    · intro s _ readings
      obtain ⟨hlookup, calls, hcalls, hstore⟩ := touches_perform s (cmd.call a) cmd.body readings
      rw [cacheId_call] at hlookup hcalls
      rw [hdirect]
      refine ⟨hlookup b hb, calls, fun op hop => ?_, hstore⟩
      obtain ⟨key, hkey, hid⟩ := hcalls op hop
      exact ⟨key, hkey, fun heq => hb (heq.symm.trans hid)⟩
  · have hrun' : ∀ s, Reachable blake2b start s → ∀ readings,
        run collection server cmd a s readings = (outcome, s) := fun s hs readings =>
      hrun s readings (lookup_of_reachable hempty hs)
    constructor
    · intro s hs readings
      rw [hrun' s hs]
      exact .inr ⟨hrefused, rfl⟩
    · intro s s' hs hs' _ readings
      rw [hrun' s hs, hrun' s' hs']
    · intro s hs readings
      rw [hrun' s hs]
      exact ⟨rfl, [], by simp, rfl⟩

/-! ## Commands that do not -/

/-- A cache without chunks, for one tick of the clock. -/
def emptyCache (name : String) : Registration where
  tokenIds := []
  payloads := .mapping ∅
  cacheId := some name
  ttl := some 1

theorem register_emptyCache (blake2b : List UInt8 → String) (s : ExplicitKVCache σ)
    {name : String} (hname : name ≠ "") :
    ∃ d : CacheDescriptor, d.cacheId = name ∧ d.expiresAt = some 1 ∧
      (s.register blake2b (emptyCache name) "" 0).2.descriptors =
        (s.publish name d).descriptors := by
  have hslices : chunkTokenIds [] s.chunkSize = .ok [] := by
    have hdiv : (0 + s.chunkSize - 1) / s.chunkSize = 0 :=
      Nat.div_eq_of_lt (by have := s.chunkSize_pos; omega)
    rw [chunkTokenIds_of_pos _ s.chunkSize_pos, tokenSlices, List.length_nil, hdiv]
    rfl
  have hid : resolveId (some name) "" = name := if_neg hname
  unfold register
  simp only [emptyCache, hslices, hid]
  exact ⟨_, rfl, rfl, rfl⟩

theorem code_of_effective {s : ExplicitKVCache σ} {name : String} {call : CacheCall}
    (hcall : Effective name cmd call) {d : CacheDescriptor}
    (hd : s.descriptors.lookup name = some d) {readings : Readings}
    (hlive : d.isExpired none readings.check = false) {response : Response}
    (hresponse : (perform s call cmd.body readings).1 = .ok response) : response.code = 200 := by
  have hfound : s.liveDescriptor name readings.check = (.ok d, s) := by
    simp [liveDescriptor, hd, hlive]
  cases hcall with
  | inspect =>
      simp only [perform, withCache, ExplicitKVCache.get, hfound, Except.ok.injEq] at hresponse
      rw [← hresponse]
  | delete =>
      simp only [perform, Except.ok.injEq] at hresponse
      rw [← hresponse]
  | @mutate _ action hpost hbody =>
      have hact : (act s name action (readTtl cmd.body) readings).1 = .ok () := by
        cases action with
        | pin => simp only [act, ExplicitKVCache.pin, hfound]
        | unpin => simp only [act, ExplicitKVCache.unpin, hfound]
        | ttl =>
            obtain ⟨seconds, hseconds⟩ := Option.isSome_iff_exists.mp (hbody rfl)
            simp only [act, hseconds, readTtl, extendTtl, hfound, Ttl.addedTo, Except.map]
      simp only [perform, mutate, hact] at hresponse
      cases hagain : ((act s name action (readTtl cmd.body) readings).2.get name
          readings.again).1 with
      | error err =>
          rw [hagain] at hresponse
          cases hresponse
      | ok d' =>
          rw [hagain] at hresponse
          cases hresponse
          rfl

theorem direct_of_absent {s : ExplicitKVCache σ} (hnone : s.descriptors.lookup a = none)
    (hmethod : cmd.method ≠ .delete) (readings : Readings) :
    ∃ response : Response, response.code ≠ 200 ∧
      (direct cmd a s readings).1 = .served (.ok response) := by
  have hmutate : ∀ action, cmd.call a = .mutate a action →
      ∃ response : Response, response.code ≠ 200 ∧
        (direct cmd a s readings).1 = .served (.ok response) := by
    intro action hcall
    obtain ⟨response, hcode, hresponse⟩ := mutate_of_absent (σ := σ) a action cmd.body
    refine ⟨response, by omega, ?_⟩
    simp only [direct, hcall, hresponse s readings hnone]
  cases cmd with
  | get =>
      refine ⟨⟨404, .missing a⟩, by simp, ?_⟩
      simp [direct, Command.call, perform, withCache, ExplicitKVCache.get, liveDescriptor, hnone]
  | pin => exact hmutate .pin rfl
  | unpin => exact hmutate .unpin rfl
  | ttl => exact hmutate .ttl rfl
  | delete => exact absurd rfl hmethod

theorem not_refused_of_code {reply : Except Raised Response}
    (hcode : ∀ response, reply = .ok response → response.code = 200) :
    ¬Refused (.served reply) := by
  intro hrefused
  cases reply with
  | error err => exact hrefused
  | ok response =>
      have h200 := hcode response rfl
      simp only [Refused] at hrefused
      omega

/-- An effective call for a live cache does not end as the command ends for a
cache that is not there. -/
theorem direct_ne_effective {s : ExplicitKVCache σ} {name : String} {call : CacheCall}
    (hcall : Effective name cmd call) (hna : name ≠ a) (hnone : s.descriptors.lookup a = none)
    {readings : Readings} (hcode : ∀ response,
      (perform s call cmd.body readings).1 = .ok response → response.code = 200) :
    (direct cmd a s readings).1 ≠ .served (perform s call cmd.body readings).1 := by
  intro heq
  by_cases hmethod : cmd.method = .delete
  · cases hcall with
    | inspect => cases hmethod
    | delete =>
        simp only [perform, direct, Command.call, Outcome.served.injEq, Except.ok.injEq,
          Response.mk.injEq, Body.deleted.injEq, true_and] at heq
        exact hna heq.symm
    | mutate hpost =>
        rw [hpost] at hmethod
        cases hmethod
  · obtain ⟨response, hresponse, hserved⟩ := direct_of_absent hnone hmethod readings
    rw [hserved, Outcome.served.injEq] at heq
    exact hresponse (hcode response heq.symm)

/-- A misread id reaches a cache of the name that it is misread for. -/
theorem not_confined_of_misread (blake2b : List UInt8 → String) {start : ExplicitKVCache σ}
    (hempty : start.descriptors = ∅) (haccepted : Accepted cmd a) (hmisread : Misread cmd a) :
    ∃ b, b ≠ "" ∧ b ≠ a ∧ ¬Confined blake2b collection start server cmd a b := by
  obtain ⟨name, call, hne, hna, hcall, hroute⟩ := route_of_misread hmisread
  refine ⟨name, hne, hna, fun hconfined => ?_⟩
  obtain ⟨d, _, hexpires, hdescriptors⟩ := register_emptyCache blake2b start hne
  -- only the other cache is there
  generalize hs : (start.register blake2b (emptyCache name) "" 0).2 = s at hdescriptors
  have hreachable : Reachable blake2b start s := by
    refine ⟨[.register (emptyCache name) "" 0], fun op hop => ?_, hs.symm⟩
    rw [List.mem_singleton.mp hop]
    simp [callId, emptyCache, resolveId, hne]
  have hd : s.descriptors.lookup name = some d := by
    rw [hdescriptors, lookup_publish_self]
  have hnone : s.descriptors.lookup a = none := by
    rw [hdescriptors, lookup_publish_other _ _ hna.symm, hempty]
    rfl
  have hlive : d.isExpired none 0 = false := by
    simp only [CacheDescriptor.isExpired, hexpires]
    decide
  have hrun := run_of_call collection server haccepted hroute s ⟨0, 0, 0⟩
  have hcode : ∀ response, (perform s call cmd.body ⟨0, 0, 0⟩).1 = .ok response →
      response.code = 200 := fun _ => code_of_effective hcall hd hlive
  have hacts := hconfined.acts s hreachable ⟨0, 0, 0⟩
  rw [hrun] at hacts
  cases hacts with
  | inl hdirect =>
      exact direct_ne_effective hcall hna hnone hcode (congrArg Prod.fst hdirect).symm
  | inr hrefused => exact not_refused_of_code hcode hrefused.1

/-- A command is confined to the cache it names exactly when its id keeps its name
on the way to the server. -/
theorem confined_iff_keepsName (blake2b : List UInt8 → String)
    (collection : Collection → ExplicitKVCache σ → Except Raised Response × ExplicitKVCache σ)
    (start : ExplicitKVCache σ) (hempty : start.descriptors = ∅) (server : ServerUrl)
    (cmd : Command) (a : String) :
    (∀ b, b ≠ "" → b ≠ a → Confined blake2b collection start server cmd a b) ↔
      KeepsName cmd a := by
  constructor
  · intro hconfined
    by_contra hnot
    obtain ⟨haccepted, hmisread⟩ := not_or.mp hnot
    obtain ⟨b, hb, hba, hescapes⟩ := not_confined_of_misread collection server blake2b hempty
      (not_not.mp haccepted) (not_not.mp hmisread)
    exact hescapes (hconfined b hb hba)
  · intro h b _ hba
    exact confined_of_keepsName collection server hempty h hba

theorem confined_iff_keepsName_sample :
    let start : ExplicitKVCache UnboundedCPU := ⟨.empty, 2, by decide, none, ∅⟩
    (∀ b, b ≠ "" → b ≠ "doc-1" → Confined Prefix.sampleDigest
        (fun _ s => (.ok ⟨404, .notFound⟩, s)) start defaultServer .get "doc-1" b) ↔
      KeepsName .get "doc-1" := by
  intro start
  exact confined_iff_keepsName _ _ start rfl defaultServer .get "doc-1"

/-- Deleting `b#old` deletes `b`, `b?` shows it, and pinning `b/pin?` pins it. -/
theorem delete_reaches_other :
    let start : ExplicitKVCache UnboundedCPU := ⟨.empty, 2, by decide, none, ∅⟩
    let collection : Collection → ExplicitKVCache UnboundedCPU →
        Except Raised Response × ExplicitKVCache UnboundedCPU :=
      fun _ s => (.ok ⟨404, .notFound⟩, s)
    let s := (ExplicitKVCache.machine Prefix.sampleDigest _).exec start
      [.register (emptyCache "b") "" 0, .register (emptyCache "b#old") "" 0]
    let deleted := (run collection defaultServer .delete "b#old" s ⟨0, 0, 0⟩).2.descriptors
    let pinned := (run collection defaultServer .pin "b/pin?" s ⟨0, 0, 0⟩).2.descriptors
    deleted.keys = ["b#old"] ∧
      (run collection defaultServer .get "b?" s ⟨0, 0, 0⟩).1 = (direct .get "b" s ⟨0, 0, 0⟩).1 ∧
      (pinned.lookup "b").map CacheDescriptor.pinned = some true ∧
      ¬Confined Prefix.sampleDigest collection start defaultServer .delete "b#old" "b" := by
  intro start collection s deleted pinned
  have hdeleted : deleted.keys = ["b#old"] := by decide +kernel
  refine ⟨hdeleted, by decide +kernel, by decide +kernel, fun hconfined => ?_⟩
  have hreachable : Reachable Prefix.sampleDigest start s := ⟨_, by decide, rfl⟩
  have hsame : deleted.lookup "b" = s.descriptors.lookup "b" :=
    (hconfined.unchanged s hreachable ⟨0, 0, 0⟩).1
  have hgone : deleted.lookup "b" = none := by decide +kernel
  have hheld : (s.descriptors.lookup "b").isSome := by decide +kernel
  rw [← hsame, hgone] at hheld
  cases hheld

end LlmCache.Control
