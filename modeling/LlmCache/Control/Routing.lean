import LlmCache.Control.Client
import Mathlib.Data.List.Find

/-!
# From an id to a call

The client writes the id into the URL as it stands, and the server takes from
the URL what its own rules leave of it.
-/

namespace LlmCache.Control

open Errors Lib

/-! ## From the id to the path -/

theorem rdropWhile_replicate {l : List Char} {c : Char} (hl : l.rdropWhile (· = c) = l) (n : Nat) :
    (l ++ List.replicate n c).rdropWhile (· = c) = l := by
  induction n with
  | zero => rw [List.replicate_zero, List.append_nil, hl]
  | succ n ih =>
      rw [List.replicate_succ', ← List.append_assoc, List.rdropWhile_concat_pos _ _ _ (by simp), ih]

theorem rstrip_server (server : ServerUrl) :
    server.text.rdropWhile (· = '/') = "http://".toList ++ server.host := by
  apply rdropWhile_replicate
  rw [List.rdropWhile_eq_self_iff]
  intro hne
  rw [List.getLast_append_of_ne_nil _ server.host_ne]
  simpa using (server.host_chars _ (List.getLast_mem server.host_ne)).1

/-- The part of the request line that stems from the id: the client strips the
URL and cuts it at its last `#`. -/
def sent (cmd : Command) (cacheId : String) : List Char :=
  beforeTag (rstrip (cacheId.toList ++ cmd.suffix))

theorem cachesPrefix_eq :
    cachesPrefix = ['/', 'v', '1', '/', 'c', 'a', 'c', 'h', 'e', 's', '/'] := by
  rfl

theorem cachesPrefix_append (x : List Char) :
    cachesPrefix ++ x = '/' :: ("v1/caches".toList ++ '/' :: x) := by
  simp [cachesPrefix_eq]

theorem selector_path (server : ServerUrl) (cmd : Command) (cacheId : String) :
    selector (server.text.rdropWhile (· = '/') ++ cmd.path cacheId) =
      some (cachesPrefix ++ sent cmd cacheId) := by
  have hroot : '#' ∉ "v1/caches".toList := by decide
  have hscheme : "http://".toList = ['h', 't', 't', 'p', ':', '/', '/'] := by decide
  rw [rstrip_server, Command.path, List.append_assoc cachesPrefix, cachesPrefix_append,
    cachesPrefix_append, hscheme, List.append_assoc, selector_http server.host_chars hroot]
  rfl

/-- The texts that `http.client` sends. -/
def Sendable (cmd : Command) (cacheId : String) : Prop :=
  ∀ c ∈ sent cmd cacheId, isGraphic c

theorem request_of_sendable {cmd : Command} {cacheId : String} (h : Sendable cmd cacheId)
    (server : ServerUrl) :
    request server.text cmd.method (cmd.path cacheId) cmd.body =
      .ok ⟨cmd.method, cachesPrefix ++ sent cmd cacheId, cmd.body⟩ := by
  have hfront : ∀ c ∈ cachesPrefix, isGraphic c := by
    apply List.all_eq_true.mp
    rw [cachesPrefix_eq]
    decide
  have hgraphic : ∀ c ∈ cachesPrefix ++ sent cmd cacheId, isGraphic c := by
    intro c hc
    rcases List.mem_append.mp hc with hc | hc
    · exact hfront c hc
    · exact h c hc
  have hrange : ∀ c ∈ cachesPrefix ++ sent cmd cacheId, 33 ≤ c.toNat ∧ c.toNat ≤ 126 := by
    intro c hc
    simpa [isGraphic] using hgraphic c hc
  rw [request, selector_path]
  have hcontrol : ¬((cachesPrefix ++ sent cmd cacheId).any fun c =>
      c.toNat ≤ 32 || c.toNat = 127) = true := by
    simp only [List.any_eq_true, Bool.or_eq_true, decide_eq_true_eq]
    rintro ⟨c, hc, hbad⟩
    have := hrange c hc
    omega
  have hascii : ¬((cachesPrefix ++ sent cmd cacheId).any fun c => 128 ≤ c.toNat) = true := by
    simp only [List.any_eq_true, decide_eq_true_eq]
    rintro ⟨c, hc, hbad⟩
    have := hrange c hc
    omega
  dsimp only
  rw [if_neg hcontrol, if_neg hascii]

theorem request_of_not_sendable {cmd : Command} {cacheId : String} (h : ¬Sendable cmd cacheId)
    (server : ServerUrl) :
    ∃ err, request server.text cmd.method (cmd.path cacheId) cmd.body = .error err := by
  simp only [Sendable, not_forall] at h
  obtain ⟨c, hc, hbad⟩ := h
  have hmem : c ∈ cachesPrefix ++ sent cmd cacheId := List.mem_append_right _ hc
  rw [request, selector_path]
  dsimp only
  split_ifs with hcontrol hascii
  · exact ⟨_, rfl⟩
  · exact ⟨_, rfl⟩
  · simp only [List.any_eq_true, Bool.or_eq_true, decide_eq_true_eq, not_exists, not_and,
      isGraphic, Bool.and_eq_true] at hcontrol hascii hbad
    have h1 := hcontrol c hmem
    have h2 := hascii c hmem
    omega

/-! ## From the path to the call -/

/-- What the server's URL parser leaves of the text behind the prefix. -/
theorem urlPath_sent (cmd : Command) (cacheId : String) :
    urlPath (cachesPrefix ++ sent cmd cacheId) =
      cachesPrefix ++ urlPath (rstrip (cacheId.toList ++ cmd.suffix)) := by
  have hroot : ∀ c ∈ "/v1/caches".toList, isPathChar c = true := by
    apply List.all_eq_true.mp
    decide
  have hfront : ∀ x, cachesPrefix ++ x = "/v1/caches".toList ++ '/' :: x := by
    intro x
    simp [cachesPrefix_eq]
  rw [hfront, hfront, urlPath_append hroot, sent, urlPath_beforeTag]

theorem cacheIdOf_append (name : List Char) :
    cacheIdOf (cachesPrefix ++ name) =
      if '/' ∈ name ∨ name = [] then none else some (String.ofList name) := by
  rw [cacheIdOf, List.drop_left]
  by_cases hslash : '/' ∈ name
  · simp [hslash]
  · by_cases hnil : name = []
    · simp [hnil]
    · simp [hslash, hnil]

theorem routeGet_append (name : List Char) :
    routeGet (cachesPrefix ++ name) =
      if '/' ∈ name ∨ name = [] then .notFound else .call (.inspect (String.ofList name)) := by
  have hhealth : cachesPrefix ++ name ≠ "/healthz".toList := by simp [cachesPrefix_eq]
  have hstats : cachesPrefix ++ name ≠ "/v1/stats".toList := by simp [cachesPrefix_eq]
  have hcaches : cachesPrefix ++ name ≠ "/v1/caches".toList := by simp [cachesPrefix_eq]
  rw [routeGet, if_neg hhealth, if_neg hstats, if_neg hcaches, cacheIdOf_append]
  split_ifs <;> rfl

theorem routeDelete_append (name : List Char) :
    routeDelete (cachesPrefix ++ name) =
      if '/' ∈ name ∨ name = [] then .notFound else .call (.delete (String.ofList name)) := by
  rw [routeDelete, cacheIdOf_append]
  split_ifs <;> rfl

theorem suffix_append_iff {action : List Char} (haction : '/' ∉ action) (p r : List Char) :
    '/' :: action <:+ p ++ '/' :: r ↔ '/' :: action <:+ '/' :: r := by
  constructor
  · rintro ⟨t, ht⟩
    rcases List.append_eq_append_iff.mp ht with ⟨u, hp, hu⟩ | ⟨u, _, hu⟩
    · cases u with
      | nil =>
          rw [List.nil_append] at hu
          exact hu ▸ List.suffix_rfl
      | cons c u =>
          have hmem : '/' ∈ action := by
            rw [(List.cons.inj hu).2]
            simp
          exact absurd hmem haction
    · exact ⟨u, hu.symm⟩
  · intro h
    exact h.trans (List.suffix_append p _)

theorem actions_eq :
    actions = [(['/', 'p', 'i', 'n'], .pin), (['/', 'u', 'n', 'p', 'i', 'n'], .unpin),
      (['/', 't', 't', 'l'], .ttl)] := by
  rfl

theorem actions_cases {suffix : List Char} {action : Action} (h : (suffix, action) ∈ actions) :
    ∃ word, suffix = '/' :: word ∧ '/' ∉ word ∧ dropParams word = word ∧
      ∀ c ∈ '/' :: word, isPathChar c ∧ c ≠ ';' ∧ ¬isSpace c := by
  have hchars : ∀ text : List Char,
      (text.all fun c => isPathChar c && (decide (c ≠ ';') && !isSpace c)) = true →
        ∀ c ∈ text, isPathChar c ∧ c ≠ ';' ∧ ¬isSpace c := by
    intro text hall c hc
    simpa using List.all_eq_true.mp hall c hc
  simp only [actions_eq, List.mem_cons, Prod.mk.injEq, List.not_mem_nil, or_false] at h
  rcases h with ⟨rfl, _⟩ | ⟨rfl, _⟩ | ⟨rfl, _⟩
  · exact ⟨['p', 'i', 'n'], rfl, by decide, by decide, hchars _ (by decide)⟩
  · exact ⟨['u', 'n', 'p', 'i', 'n'], rfl, by decide, by decide, hchars _ (by decide)⟩
  · exact ⟨['t', 't', 'l'], rfl, by decide, by decide, hchars _ (by decide)⟩

/-- What a command writes behind the id is nothing, or the action it asks for. -/
theorem suffix_cases (cmd : Command) :
    cmd.suffix = [] ∨ ∃ action, (cmd.suffix, action) ∈ actions := by
  have hpin : ("/pin".toList, Action.pin) ∈ actions := by decide
  have hunpin : ("/unpin".toList, Action.unpin) ∈ actions := by decide
  have httl : ("/ttl".toList, Action.ttl) ∈ actions := by decide
  cases cmd with
  | get => exact .inl rfl
  | pin => exact .inr ⟨.pin, hpin⟩
  | unpin => exact .inr ⟨.unpin, hunpin⟩
  | ttl => exact .inr ⟨.ttl, httl⟩
  | delete => exact .inl rfl

theorem routePost_append (name : List Char) :
    routePost (cachesPrefix ++ name) =
      match actions.find? fun entry => entry.1 <:+ '/' :: name with
      | some (suffix, action) =>
          .call (.mutate (String.ofList (name.take (name.length - suffix.length))) action)
      | none => .notFound := by
  have hcaches : cachesPrefix ++ name ≠ "/v1/caches".toList := by simp [cachesPrefix_eq]
  have hsplit : cachesPrefix ++ name = "/v1/caches".toList ++ '/' :: name := by
    simp [cachesPrefix_eq]
  have hfind : (actions.find? fun entry =>
      entry.1 <:+ cachesPrefix ++ name ∧ cachesPrefix <+: cachesPrefix ++ name) =
        actions.find? fun entry => entry.1 <:+ '/' :: name := by
    apply List.find?_congr
    rintro ⟨suffix, action⟩ hentry
    obtain ⟨word, rfl, hword, _⟩ := actions_cases hentry
    have hiff := suffix_append_iff hword "/v1/caches".toList name
    rw [← hsplit] at hiff
    simp only [hiff, List.prefix_append, and_true]
  rw [routePost, if_neg hcaches, hfind]
  cases actions.find? fun entry => entry.1 <:+ '/' :: name with
  | none => rfl
  | some entry =>
      have hslice : ((cachesPrefix ++ name).take
          ((cachesPrefix ++ name).length - entry.1.length)).drop cachesPrefix.length =
            name.take (name.length - entry.1.length) := by
        rw [List.drop_take, List.drop_left, List.length_append]
        congr 1
        omega
      simp only [hslice]

theorem routePost_cases (name : List Char) :
    routePost (cachesPrefix ++ name) = .notFound ∨
      ∃ suffix action c, (suffix, action) ∈ actions ∧ (c = [] ∨ name = c ++ suffix) ∧
        routePost (cachesPrefix ++ name) = .call (.mutate (String.ofList c) action) := by
  rw [routePost_append]
  cases hfind : actions.find? fun entry => entry.1 <:+ '/' :: name with
  | none => exact .inl rfl
  | some entry =>
      right
      have hsuffix : entry.1 <:+ '/' :: name := by simpa using List.find?_some hfind
      refine ⟨entry.1, entry.2, _, List.mem_of_find?_eq_some hfind, ?_, rfl⟩
      obtain ⟨t, ht⟩ := hsuffix
      cases t with
      | nil =>
          left
          have hlength := congrArg List.length ht
          simp only [List.nil_append, List.length_cons] at hlength
          simp [hlength]
      | cons c t =>
          right
          rw [List.cons_append, List.cons.injEq] at ht
          rw [← ht.2, List.length_append, Nat.add_sub_cancel, List.take_left]

theorem routePost_of_suffix {suffix : List Char} {action : Action}
    (h : (suffix, action) ∈ actions) (c : List Char) :
    routePost (cachesPrefix ++ (c ++ suffix)) = .call (.mutate (String.ofList c) action) := by
  have hfind : (actions.find? fun entry => entry.1 <:+ '/' :: (c ++ suffix)) =
      some (suffix, action) := by
    have hiff : ∀ word word' : List Char, '/' ∉ word →
        ('/' :: word <:+ '/' :: (c ++ '/' :: word') ↔ '/' :: word <:+ '/' :: word') := fun _ _ hw =>
      suffix_append_iff hw ('/' :: c) _
    simp only [actions_eq, List.mem_cons, Prod.mk.injEq, List.not_mem_nil, or_false] at h
    rcases h with ⟨rfl, rfl⟩ | ⟨rfl, rfl⟩ | ⟨rfl, rfl⟩
    all_goals
      simp only [actions_eq, List.find?, hiff _ _ (by decide : '/' ∉ ['p', 'i', 'n']),
        hiff _ _ (by decide : '/' ∉ ['u', 'n', 'p', 'i', 'n']),
        hiff _ _ (by decide : '/' ∉ ['t', 't', 'l'])]
      decide
  rw [routePost_append, hfind]
  simp

end LlmCache.Control
