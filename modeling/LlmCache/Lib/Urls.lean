import LlmCache.Lib.Strings

/-!
# URLs

What `urllib.request` makes of a URL before it is sent, and what
`urllib.parse.urlparse` finds in the target of a request.
-/

namespace LlmCache.Lib

/-! ## The client's side -/

/-- `urllib.parse.unwrap`. -/
def unwrapUrl (url : List Char) : List Char :=
  let url := strip url
  let url :=
    if url.head? = some '<' ∧ url.getLast? = some '>' then strip url.tail.dropLast else url
  if ['U', 'R', 'L', ':'] <+: url then strip (url.drop 4) else url

/-- What `_splittag` leaves of a URL: everything before its last `#`. -/
def beforeTag (url : List Char) : List Char :=
  match splitLast '#' url with
  | some (path, _) => path
  | none => url

/-- `_splittype`: the scheme in lower case, and what follows the colon. -/
def splitType (url : List Char) : Option (List Char × List Char) :=
  match url.takeWhile fun c => c ≠ '/' ∧ c ≠ ':', url.dropWhile fun c => c ≠ '/' ∧ c ≠ ':' with
  | first :: scheme, ':' :: data => some ((first :: scheme).map Char.toLower, data)
  | _, _ => none

/-- `_splithost`: the host, and the selector that follows it. -/
def splitHost : List Char → Option (List Char) × List Char
  | '/' :: '/' :: rest =>
      let path := rest.dropWhile fun c => c ≠ '/' ∧ c ≠ '#' ∧ c ≠ '?'
      (some (rest.takeWhile fun c => c ≠ '/' ∧ c ≠ '#' ∧ c ≠ '?'),
        if path ≠ [] ∧ path.head? ≠ some '/' then '/' :: path else path)
  | url => (none, url)

/-- The selector of `Request(url)`; a URL without a scheme is refused. -/
def selector (url : List Char) : Option (List Char) :=
  (splitType (beforeTag (unwrapUrl url))).map fun typed => (splitHost typed.2).2

/-- The characters that `http.client` puts into a request line. -/
def isGraphic (c : Char) : Bool :=
  33 ≤ c.toNat && c.toNat ≤ 126

/-! ## The server's side -/

/-- The characters before the query and the fragment. -/
def isPathChar (c : Char) : Bool :=
  c ≠ '?' && c ≠ '#'

/-- What `_splitparams` leaves of a path: no `;` in its last segment. -/
def dropParams (path : List Char) : List Char :=
  match splitLast '/' path with
  | some (segments, last) => segments ++ '/' :: last.takeWhile (· ≠ ';')
  | none => path.takeWhile (· ≠ ';')

/-- `urlparse(target).path` of a target that starts with a single slash. -/
def urlPath (target : List Char) : List Char :=
  dropParams ((target.takeWhile (· ≠ '#')).takeWhile (· ≠ '?'))

/-! ## Splitting at the last separator -/

theorem splitLast_of_notMem {sep : Char} {s : List Char} (h : sep ∉ s) :
    splitLast sep s = none := by
  have hdrop : s.reverse.dropWhile (· ≠ sep) = [] := by
    rw [List.dropWhile_eq_nil_iff]
    intro c hc
    rw [decide_eq_true_eq]
    rintro rfl
    exact h (List.mem_reverse.mp hc)
  rw [splitLast, hdrop]

theorem exists_last_of_mem {sep : Char} {s : List Char} (h : sep ∈ s) :
    ∃ a b, s = a ++ sep :: b ∧ sep ∉ b := by
  obtain ⟨b, a, hab, hb⟩ := List.eq_append_cons_of_mem (List.mem_reverse.mpr h)
  refine ⟨a.reverse, b.reverse, ?_, by simpa using hb⟩
  have hrev := congrArg List.reverse hab
  simpa using hrev

/-- The two ways in which a string is split at its last separator. -/
theorem splitLast_cases (sep : Char) (s : List Char) :
    (sep ∉ s ∧ splitLast sep s = none) ∨
      ∃ a b, s = a ++ sep :: b ∧ sep ∉ b ∧ splitLast sep s = some (a, b) := by
  by_cases h : sep ∈ s
  · right
    obtain ⟨a, b, rfl, hb⟩ := exists_last_of_mem h
    exact ⟨a, b, rfl, hb, splitLast_append a hb⟩
  · left
    exact ⟨h, splitLast_of_notMem h⟩

/-! ## Texts that follow a fixed prefix -/

theorem beforeTag_append {a : List Char} (ha : '#' ∉ a) (x : List Char) :
    beforeTag (a ++ x) = a ++ beforeTag x := by
  obtain ⟨hx, hnone⟩ | ⟨b, tag, rfl, htag, hsome⟩ := splitLast_cases '#' x
  · have h : '#' ∉ a ++ x := by simp [ha, hx]
    rw [beforeTag, beforeTag, hnone, splitLast_of_notMem h]
  · rw [beforeTag, beforeTag, hsome, ← List.append_assoc, splitLast_append _ htag]

theorem dropParams_append (a x : List Char) :
    dropParams (a ++ '/' :: x) = a ++ '/' :: dropParams x := by
  obtain ⟨hx, hnone⟩ | ⟨b, last, rfl, hlast, hsome⟩ := splitLast_cases '/' x
  · rw [dropParams, dropParams, hnone, splitLast_append a hx]
  · have hassoc : a ++ '/' :: (b ++ '/' :: last) = (a ++ '/' :: b) ++ '/' :: last := by simp
    rw [dropParams, dropParams, hsome, hassoc, splitLast_append _ hlast]
    simp

theorem urlPath_eq (target : List Char) :
    urlPath target = dropParams (target.takeWhile isPathChar) := by
  rw [urlPath, List.takeWhile_takeWhile]
  congr 2
  funext c
  simp [isPathChar, Bool.and_comm]

theorem urlPath_append {a : List Char} (ha : ∀ c ∈ a, isPathChar c) (x : List Char) :
    urlPath (a ++ '/' :: x) = a ++ '/' :: urlPath x := by
  have hslash : isPathChar '/' = true := by decide
  rw [urlPath_eq, urlPath_eq, List.takeWhile_append_of_pos ha, List.takeWhile_cons_of_pos hslash,
    dropParams_append]

/-- The path ends before the first `#`, so it does not matter that the client
has already cut the text at its last one. -/
theorem urlPath_beforeTag (x : List Char) : urlPath (beforeTag x) = urlPath x := by
  obtain ⟨hx, hnone⟩ | ⟨a, tag, rfl, htag, hsome⟩ := splitLast_cases '#' x
  · rw [beforeTag, hnone]
  · have hstop : isPathChar '#' = false := by decide
    rw [beforeTag, hsome, urlPath_eq, urlPath_eq, List.takeWhile_append]
    split_ifs with hall
    · rw [List.takeWhile_cons_of_neg (by simp [hstop]), List.append_nil,
        (List.takeWhile_prefix _).eq_of_length hall]
    · rfl

theorem rstrip_append {a : List Char} {c : Char} (hc : ¬isSpace c) (x : List Char) :
    rstrip (a ++ c :: x) = a ++ c :: rstrip x := by
  induction x using List.reverseRecOn with
  | nil =>
      rw [rstrip, List.rdropWhile_concat_neg _ _ _ hc]
      rfl
  | append_singleton x d ih =>
      have hassoc : a ++ c :: (x ++ [d]) = (a ++ c :: x) ++ [d] := by simp
      rw [hassoc, rstrip, rstrip, List.rdropWhile_concat, List.rdropWhile_concat]
      split_ifs with hd
      · exact ih
      · simp

theorem splitHost_host {host : List Char} (hhost : ∀ c ∈ host, c ≠ '/' ∧ c ≠ '#' ∧ c ≠ '?')
    (path : List Char) :
    splitHost ('/' :: '/' :: (host ++ '/' :: path)) = (some host, '/' :: path) := by
  have hstop : ∀ c ∈ host, decide (c ≠ '/' ∧ c ≠ '#' ∧ c ≠ '?') = true := by
    intro c hc
    exact decide_eq_true (hhost c hc)
  rw [splitHost, List.takeWhile_append_of_pos hstop, List.dropWhile_append_of_pos hstop]
  simp

/-- A URL with a host and a path of at least two segments: the client strips its
end and cuts it at the last `#`. -/
theorem selector_http {host root : List Char}
    (hhost : ∀ c ∈ host, c ≠ '/' ∧ c ≠ '#' ∧ c ≠ '?') (hroot : '#' ∉ root) (x : List Char) :
    selector (['h', 't', 't', 'p', ':', '/', '/'] ++ (host ++ '/' :: (root ++ '/' :: x))) =
      some ('/' :: (root ++ '/' :: beforeTag (rstrip x))) := by
  have hfirst : ¬isSpace 'h' = true := by decide
  have hslash : ¬isSpace '/' = true := by decide
  have htag : '#' ∉ 'h' :: 't' :: 't' :: 'p' :: ':' :: '/' :: '/' :: (host ++ '/' :: root) := by
    have hhash : '#' ∉ host := fun h => (hhost _ h).2.1 rfl
    simp [hhash, hroot]
  -- the text up to the last slash that is known
  generalize hknown : 'h' :: 't' :: 't' :: 'p' :: ':' :: '/' :: '/' :: (host ++ '/' :: root) = known
    at htag
  have hurl : ∀ y, ['h', 't', 't', 'p', ':', '/', '/'] ++ (host ++ '/' :: (root ++ '/' :: y)) =
      known ++ '/' :: y := by
    intro y
    simp [← hknown]
  have hstrip : strip (known ++ '/' :: x) = known ++ '/' :: rstrip x := by
    have hdrop : (known ++ '/' :: x).dropWhile isSpace = known ++ '/' :: x := by
      rw [← hknown]
      exact List.dropWhile_cons_of_neg hfirst
    rw [strip, hdrop, rstrip_append hslash]
  have hunwrap : unwrapUrl (known ++ '/' :: x) = known ++ '/' :: rstrip x := by
    rw [unwrapUrl, hstrip, ← hknown]
    simp
  have hbefore : beforeTag (known ++ '/' :: rstrip x) = known ++ '/' :: beforeTag (rstrip x) := by
    have hassoc : ∀ y, known ++ '/' :: y = (known ++ ['/']) ++ y := by simp
    have hslashed : '#' ∉ known ++ ['/'] := by simp [htag]
    rw [hassoc (rstrip x), hassoc (beforeTag (rstrip x)), beforeTag_append hslashed]
  rw [hurl, selector, hunwrap, hbefore, ← hurl]
  simp [splitType, splitHost_host hhost]

/-! ## What is left of a text -/

/-- A text that is not part of the path it follows: a query, a fragment, or the
parameters of the last segment. -/
def CutOff : List Char → Prop
  | [] => False
  | c :: rest => c = '?' ∨ c = '#' ∨ (c = ';' ∧ '/' ∉ rest.takeWhile isPathChar)

/-- A path without query, fragment and parameters. -/
structure BarePath (path : List Char) : Prop where
  chars : ∀ c ∈ path, isPathChar c
  no_params : dropParams path = path

theorem dropParams_of_notMem {path : List Char} (h : '/' ∉ path) :
    dropParams path = path.takeWhile (· ≠ ';') := by
  rw [dropParams, splitLast_of_notMem h]

theorem dropParams_append_params {path : List Char} (hpath : dropParams path = path)
    {params : List Char} (hparams : '/' ∉ params) :
    dropParams (path ++ ';' :: params) = path := by
  have hstop : ∀ l : List Char, l.takeWhile (fun c => decide (c ≠ ';')) = l →
      (l ++ ';' :: params).takeWhile (fun c => decide (c ≠ ';')) = l := by
    intro l hl
    rw [List.takeWhile_append_of_pos (List.takeWhile_eq_self_iff.mp hl)]
    simp
  obtain ⟨hslash, hnone⟩ | ⟨a, last, rfl, hlast, hsome⟩ := splitLast_cases '/' path
  · rw [dropParams_of_notMem hslash] at hpath
    rw [dropParams_of_notMem (by simp [hslash, hparams])]
    exact hstop path hpath
  · rw [dropParams_append, dropParams_of_notMem hlast, List.append_cancel_left_eq,
      List.cons.injEq] at hpath
    rw [List.append_assoc, List.cons_append, dropParams_append,
      dropParams_of_notMem (by simp [hlast, hparams]), hstop last hpath.2]

theorem takeWhile_spec (p : Char → Bool) (l : List Char) :
    ∃ rest, l = l.takeWhile p ++ rest ∧ (rest = [] ∨ ∃ c more, rest = c :: more ∧ p c = false) := by
  refine ⟨l.dropWhile p, List.takeWhile_append_dropWhile.symm, ?_⟩
  cases hdrop : l.dropWhile p with
  | nil => exact .inl rfl
  | cons c more =>
      have hhead := List.head?_dropWhile_not p l
      rw [hdrop, List.head?_cons] at hhead
      exact .inr ⟨c, more, rfl, by simpa using hhead⟩

theorem dropParams_spec (path : List Char) :
    dropParams (dropParams path) = dropParams path ∧
      ∃ rest, path = dropParams path ++ rest ∧
        (rest = [] ∨ ∃ params, rest = ';' :: params ∧ '/' ∉ params) := by
  have hsegment : ∀ l : List Char, '/' ∉ l →
      dropParams (l.takeWhile (· ≠ ';')) = l.takeWhile (· ≠ ';') ∧
        ∃ rest, l = l.takeWhile (· ≠ ';') ++ rest ∧
          (rest = [] ∨ ∃ params, rest = ';' :: params ∧ '/' ∉ params) := by
    intro l hl
    have htake : '/' ∉ l.takeWhile (· ≠ ';') := fun h => hl ((List.takeWhile_subset _) h)
    refine ⟨by rw [dropParams_of_notMem htake, List.takeWhile_idem], ?_⟩
    obtain ⟨rest, heq, hrest⟩ := takeWhile_spec (· ≠ ';') l
    refine ⟨rest, heq, ?_⟩
    rcases hrest with hnil | ⟨c, params, rfl, hc⟩
    · exact .inl hnil
    · obtain rfl : c = ';' := by simpa using hc
      refine .inr ⟨params, rfl, fun h => hl ?_⟩
      rw [heq]
      simp [h]
  obtain ⟨hslash, hnone⟩ | ⟨a, last, rfl, hlast, hsome⟩ := splitLast_cases '/' path
  · rw [dropParams_of_notMem hslash]
    exact hsegment path hslash
  · obtain ⟨hself, rest, heq, hrest⟩ := hsegment last hlast
    rw [dropParams_append, dropParams_append, dropParams_of_notMem hlast]
    refine ⟨by rw [hself], rest, ?_, hrest⟩
    rw [List.append_assoc, List.cons_append, ← heq]

theorem cutOff_of_stop {c : Char} (hc : isPathChar c = false) (rest : List Char) :
    CutOff (c :: rest) := by
  simp only [isPathChar, ne_eq, Bool.and_eq_false_iff, decide_eq_false_iff_not, not_not] at hc
  rcases hc with rfl | rfl
  · exact .inl rfl
  · exact .inr (.inl rfl)

theorem urlPath_append_cutOff {path : List Char} (hpath : BarePath path) {rest : List Char}
    (hrest : rest = [] ∨ CutOff rest) : urlPath (path ++ rest) = path := by
  rw [urlPath_eq, List.takeWhile_append_of_pos hpath.chars]
  cases rest with
  | nil => rw [List.takeWhile_nil, List.append_nil, hpath.no_params]
  | cons c rest =>
      rcases hrest with hnil | rfl | rfl | ⟨rfl, hslash⟩
      · cases hnil
      · rw [List.takeWhile_cons_of_neg (by decide), List.append_nil, hpath.no_params]
      · rw [List.takeWhile_cons_of_neg (by decide), List.append_nil, hpath.no_params]
      · rw [List.takeWhile_cons_of_pos (by decide)]
        exact dropParams_append_params hpath.no_params hslash

theorem urlPath_spec (target : List Char) :
    BarePath (urlPath target) ∧
      ∃ rest, target = urlPath target ++ rest ∧ (rest = [] ∨ CutOff rest) := by
  have hchars : ∀ c ∈ target.takeWhile isPathChar, isPathChar c := fun c hc =>
    List.mem_takeWhile_imp hc
  obtain ⟨hself, params, heq, hparams⟩ := dropParams_spec (target.takeWhile isPathChar)
  obtain ⟨query, htarget, hquery⟩ := takeWhile_spec isPathChar target
  rw [← urlPath_eq] at hself heq
  refine ⟨⟨fun c hc => hchars c (by rw [heq]; simp [hc]), hself⟩, params ++ query, ?_, ?_⟩
  · rw [← List.append_assoc, ← heq, ← htarget]
  · rcases hparams with rfl | ⟨more, rfl, hmore⟩
    · rcases hquery with rfl | ⟨c, rest, rfl, hc⟩
      · exact .inl rfl
      · exact .inr (cutOff_of_stop hc rest)
    · have hmorechars : ∀ c ∈ more, isPathChar c := fun c hc =>
        hchars c (by rw [heq]; simp [hc])
      have hstop : (more ++ query).takeWhile isPathChar = more := by
        rw [List.takeWhile_append_of_pos hmorechars]
        rcases hquery with rfl | ⟨c, rest, rfl, hc⟩
        · simp
        · simp [hc]
      have hslash : '/' ∉ (more ++ query).takeWhile isPathChar := by
        rw [hstop]
        exact hmore
      exact .inr (.inr (.inr ⟨rfl, hslash⟩))

/-- The path of a target is the bare path that it starts with, up to something
that is cut off. -/
theorem urlPath_eq_iff {target path : List Char} :
    urlPath target = path ↔
      BarePath path ∧ ∃ rest, target = path ++ rest ∧ (rest = [] ∨ CutOff rest) := by
  constructor
  · rintro rfl
    exact urlPath_spec target
  · rintro ⟨hpath, rest, rfl, hrest⟩
    exact urlPath_append_cutOff hpath hrest

/-! ## Stripping and cutting -/

/-- Text at the end of a URL that does not reach the path: white space, or
something that is cut off. -/
def Dropped (text : List Char) : Prop :=
  CutOff text ∨ (text ≠ [] ∧ ∀ c ∈ text, isSpace c)

theorem not_dropped_nil : ¬Dropped [] := by simp [Dropped, CutOff]

theorem rstrip_append_of_last {name : List Char} (hne : name ≠ [])
    (hspace : ∀ c ∈ name, ¬isSpace c) (x : List Char) : rstrip (name ++ x) = name ++ rstrip x := by
  have hsplit := List.dropLast_append_getLast hne
  have hlast := hspace _ (List.getLast_mem hne)
  rw [← hsplit, List.append_assoc, List.append_assoc]
  exact rstrip_append hlast x

theorem mem_takeWhile_append {c : Char} {a : List Char} (h : c ∈ a.takeWhile isPathChar)
    (b : List Char) : c ∈ (a ++ b).takeWhile isPathChar := by
  rw [List.takeWhile_append]
  split_ifs
  · exact List.mem_append_left _ ((List.takeWhile_subset _) h)
  · exact h

theorem cutOff_rstrip {text : List Char} (h : CutOff text) : CutOff (rstrip text) := by
  cases text with
  | nil => exact h.elim
  | cons c rest =>
      have hc : ¬isSpace c = true := by
        rcases h with rfl | rfl | ⟨rfl, _⟩
        all_goals decide
      have hstrip : rstrip (c :: rest) = c :: rstrip rest := rstrip_append (a := []) hc rest
      rw [hstrip]
      rcases h with h | h | ⟨h, hslash⟩
      · exact .inl h
      · exact .inr (.inl h)
      · refine .inr (.inr ⟨h, fun hmem => hslash ?_⟩)
        obtain ⟨blank, hblank⟩ := List.rdropWhile_prefix isSpace rest
        have hlonger := mem_takeWhile_append hmem blank
        rwa [rstrip, hblank] at hlonger

theorem cutOff_append_blank {text : List Char} (h : CutOff text) {blank : List Char}
    (hblank : ∀ c ∈ blank, isSpace c) : CutOff (text ++ blank) := by
  cases text with
  | nil => exact h.elim
  | cons c rest =>
      rcases h with h | h | ⟨h, hslash⟩
      · exact .inl h
      · exact .inr (.inl h)
      · refine .inr (.inr ⟨h, fun hmem => ?_⟩)
        have hgrown : '/' ∈ (rest ++ blank).takeWhile isPathChar := hmem
        rw [List.takeWhile_append] at hgrown
        split_ifs at hgrown with hall
        · rcases List.mem_append.mp hgrown with hrest | hmem
          · rw [(List.takeWhile_prefix _).eq_of_length hall] at hslash
            exact hslash hrest
          · exact absurd (hblank _ ((List.takeWhile_subset _) hmem)) (by decide)
        · exact hslash hgrown

theorem urlPath_rstrip {path : List Char} (hpath : BarePath path) (hne : path ≠ [])
    (hspace : ∀ c ∈ path, ¬isSpace c) {rest : List Char} (hrest : Dropped rest) :
    urlPath (rstrip (path ++ rest)) = path := by
  rw [rstrip_append_of_last hne hspace]
  apply urlPath_append_cutOff hpath
  rcases hrest with hcut | ⟨_, hblank⟩
  · exact .inr (cutOff_rstrip hcut)
  · left
    rw [rstrip, List.rdropWhile_eq_nil_iff]
    exact hblank

theorem exists_rest (text : List Char) :
    ∃ rest, text = urlPath (rstrip text) ++ rest ∧ (rest = [] ∨ Dropped rest) := by
  obtain ⟨_, rest, hrest, hcut⟩ := urlPath_spec (rstrip text)
  have hblank : ∀ c ∈ text.rtakeWhile isSpace, isSpace c := fun c hc => List.mem_rtakeWhile_imp hc
  have htext : text = rstrip text ++ text.rtakeWhile isSpace :=
    List.rdropWhile_append_rtakeWhile.symm
  refine ⟨rest ++ text.rtakeWhile isSpace, ?_, ?_⟩
  · rw [← List.append_assoc, ← hrest, ← htext]
  · rcases hcut with rfl | hcut
    · rw [List.nil_append]
      by_cases hnil : text.rtakeWhile isSpace = []
      · exact .inl hnil
      · exact .inr (.inr ⟨hnil, hblank⟩)
    · exact .inr (.inl (cutOff_append_blank hcut hblank))

end LlmCache.Lib
