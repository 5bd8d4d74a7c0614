import Mathlib.Data.List.AList

/-!
# Insertion-ordered dictionaries

Dictionaries that remember the order in which their keys arrived: Mathlib's
association lists, read from the oldest entry to the newest.
-/

namespace LlmCache.Lib

/-- A dictionary with distinct keys, its entries listed oldest first. -/
abbrev OrderedDict (α β : Type) := AList fun _ : α => β

namespace OrderedDict

variable {α β : Type} [DecidableEq α]

/-- Make `key` the newest entry, dropping any entry it has. -/
def insertLast (d : OrderedDict α β) (key : α) (value : β) : OrderedDict α β :=
  d.erase key ∪ AList.singleton key value

/-- `d[key] = value`: a key that is present keeps its place. -/
def setItem (d : OrderedDict α β) (key : α) (value : β) : OrderedDict α β :=
  if key ∈ d then d.replace key value else insertLast d key value

/-- `d.move_to_end(key)` of a key that is present. -/
def moveToEnd (d : OrderedDict α β) (key : α) : OrderedDict α β :=
  match d.lookup key with
  | none => d
  | some value => insertLast d key value

/-- `d[key] = value` for one entry after another. -/
def setItems (d : OrderedDict α β) (entries : List (α × β)) : OrderedDict α β :=
  entries.foldl (fun d entry => setItem d entry.1 entry.2) d

/-- `list(d.values())`. -/
def values (d : OrderedDict α β) : List β :=
  d.entries.map fun entry => entry.2

theorem lookup_erase (d : OrderedDict α β) (key k : α) :
    (d.erase key).lookup k = if k = key then none else d.lookup k := by
  split_ifs with hk
  · rw [hk, AList.lookup_erase]
  · exact AList.lookup_erase_ne hk

theorem lookup_singleton (key k : α) (value : β) :
    (AList.singleton key value : OrderedDict α β).lookup k =
      if k = key then some value else none := by
  split_ifs with hk
  · rw [hk, ← AList.insert_empty]
    exact AList.lookup_insert _
  · rw [AList.lookup_eq_none, AList.mem_keys, AList.keys_singleton]
    simpa using hk

theorem lookup_insertLast (d : OrderedDict α β) (key k : α) (value : β) :
    (insertLast d key value).lookup k =
      if k = key then some value else d.lookup k := by
  by_cases hmem : k ∈ d.erase key
  · have hk : k ≠ key := (AList.mem_erase.mp hmem).1
    rw [insertLast, AList.lookup_union_left hmem, lookup_erase, if_neg hk, if_neg hk]
  · rw [insertLast, AList.lookup_union_right hmem, lookup_singleton]
    split_ifs with hk
    · rfl
    · rw [← AList.lookup_erase_ne hk]
      exact (AList.lookup_eq_none.mpr hmem).symm

private theorem dlookup_cons_const (a k : α) (b : β)
    (entries : List (Sigma fun _ : α => β)) :
    List.dlookup k (⟨a, b⟩ :: entries) =
      if k = a then some b else entries.dlookup k := by
  split_ifs with hk
  · rw [hk]
    exact List.dlookup_cons_eq entries a b
  · exact List.dlookup_cons_ne entries _ hk

private theorem dlookup_kreplace (key k : α) (value : β)
    (entries : List (Sigma fun _ : α => β)) (hkey : key ∈ entries.keys) :
    (entries.kreplace key value).dlookup k =
      if k = key then some value else entries.dlookup k := by
  induction entries with
  | nil => simp at hkey
  | cons entry entries ih =>
      obtain ⟨a, b⟩ := entry
      by_cases ha : key = a
      · have hhead : (⟨a, b⟩ :: entries : List (Sigma fun _ : α => β)).kreplace key value =
            ⟨key, value⟩ :: entries :=
          List.lookmap_cons_some _ _ (if_pos ha)
        rw [hhead, dlookup_cons_const, dlookup_cons_const, ← ha]
        split_ifs <;> rfl
      · have htail : (⟨a, b⟩ :: entries : List (Sigma fun _ : α => β)).kreplace key value =
            ⟨a, b⟩ :: entries.kreplace key value :=
          List.lookmap_cons_none _ _ (if_neg ha)
        have hkey' : key ∈ entries.keys := by simpa [ha] using hkey
        rw [htail, dlookup_cons_const, dlookup_cons_const, ih hkey']
        split_ifs with hka hk
        · exact absurd (hk.symm.trans hka) ha
        · rfl
        · rfl
        · rfl

theorem lookup_replace (d : OrderedDict α β) (key k : α) (value : β)
    (hkey : key ∈ d) :
    (AList.replace key value d).lookup k =
      if k = key then some value else d.lookup k :=
  dlookup_kreplace key k value d.entries hkey

@[simp] theorem lookup_setItem (d : OrderedDict α β) (key k : α) (value : β) :
    (setItem d key value).lookup k =
      if k = key then some value else d.lookup k := by
  by_cases hmem : key ∈ d
  · rw [setItem, if_pos hmem, lookup_replace d key k value hmem]
  · rw [setItem, if_neg hmem, lookup_insertLast]

theorem setItems_append (d : OrderedDict α β) (entries entries' : List (α × β)) :
    setItems d (entries ++ entries') = setItems (setItems d entries) entries' :=
  List.foldl_append

theorem lookup_setItems_of_not_mem {d : OrderedDict α β} {entries : List (α × β)} {k : α}
    (hk : ∀ value, (k, value) ∉ entries) : (setItems d entries).lookup k = d.lookup k := by
  induction entries generalizing d with
  | nil => rfl
  | cons entry entries ih =>
      obtain ⟨key, value⟩ := entry
      have hne : k ≠ key := by
        rintro rfl
        exact hk value (List.mem_cons_self ..)
      have hrest := ih (d := setItem d key value) fun v hv => hk v (List.mem_cons_of_mem _ hv)
      rw [lookup_setItem, if_neg hne] at hrest
      exact hrest

theorem lookup_setItems_congr {d d' : OrderedDict α β} (entries : List (α × β)) {k : α}
    (h : d.lookup k = d'.lookup k) :
    (setItems d entries).lookup k = (setItems d' entries).lookup k := by
  induction entries generalizing d d' with
  | nil => exact h
  | cons entry entries ih =>
      apply ih
      rw [lookup_setItem, lookup_setItem, h]

/-- A key that is only ever set to one value ends up with it. -/
theorem lookup_setItems_of_mem {d : OrderedDict α β} {entries : List (α × β)} {k : α} {value : β}
    (hmem : (k, value) ∈ entries) (honly : ∀ v, (k, v) ∈ entries → v = value) :
    (setItems d entries).lookup k = some value := by
  induction entries generalizing d with
  | nil => cases hmem
  | cons entry entries ih =>
      by_cases hrest : (k, value) ∈ entries
      · exact ih hrest fun v hv => honly v (List.mem_cons_of_mem _ hv)
      · obtain rfl := (List.mem_cons.mp hmem).resolve_right hrest
        have hlater : ∀ v, (k, v) ∉ entries := by
          intro v hv
          obtain rfl := honly v (List.mem_cons_of_mem _ hv)
          exact hrest hv
        have hkept := lookup_setItems_of_not_mem (d := setItem d k value) hlater
        rw [lookup_setItem, if_pos rfl] at hkept
        exact hkept

@[simp] theorem lookup_moveToEnd (d : OrderedDict α β) (key k : α) :
    (moveToEnd d key).lookup k = d.lookup k := by
  unfold moveToEnd
  cases hkey : d.lookup key with
  | none => rfl
  | some value =>
      rw [lookup_insertLast]
      split_ifs with hk
      · rw [hk, hkey]
      · rfl

/-! ## Keys and values in their order -/

theorem mem_values_iff (d : OrderedDict α β) (value : β) :
    value ∈ values d ↔ ∃ key, d.lookup key = some value := by
  rw [values, List.mem_map]
  constructor
  · rintro ⟨⟨key, v⟩, hentry, rfl⟩
    exact ⟨key, AList.mem_lookup_iff.mpr hentry⟩
  · rintro ⟨key, hkey⟩
    exact ⟨⟨key, value⟩, AList.mem_lookup_iff.mp hkey, rfl⟩

theorem entries_insertLast (d : OrderedDict α β) (key : α) (value : β) :
    (insertLast d key value).entries = (d.erase key).entries ++ [⟨key, value⟩] := by
  have hunion : ∀ entries : List (Sigma fun _ : α => β), key ∉ entries.keys →
      entries.kunion [⟨key, value⟩] = entries ++ [⟨key, value⟩] := by
    intro entries hkey
    induction entries with
    | nil => rfl
    | cons entry entries ih =>
        rw [List.keys_cons, List.mem_cons, not_or] at hkey
        rw [List.kunion_cons, List.kerase_of_notMem_keys, ih hkey.2, List.cons_append]
        simpa using Ne.symm hkey.1
  have hkey : key ∉ (d.erase key).entries.keys := fun h => (AList.mem_erase.mp h).1 rfl
  rw [insertLast, AList.union_entries, AList.singleton_entries, hunion _ hkey]

theorem values_insertLast (d : OrderedDict α β) (key : α) (value : β) :
    values (insertLast d key value) = values (d.erase key) ++ [value] := by
  rw [values, entries_insertLast, List.map_append]
  rfl

theorem values_erase_of_notMem {d : OrderedDict α β} {key : α} (hkey : key ∉ d) :
    values (d.erase key) = values d := by
  have hsame : (d.erase key).entries = d.entries := List.kerase_of_notMem_keys hkey
  rw [values, hsame, values]

theorem keys_erase_eq_filter (d : OrderedDict α β) (key : α) :
    (d.erase key).keys = d.keys.filter (· ≠ key) := by
  have herase : (d.erase key).keys = d.keys.erase key := AList.keys_erase key d
  have hnodup : d.keys.Nodup := d.nodupKeys
  rw [herase, hnodup.erase_eq_filter]
  apply List.filter_congr
  intro k _
  by_cases hk : k = key <;> simp [hk]

theorem keys_insertLast (d : OrderedDict α β) (key : α) (value : β) :
    (insertLast d key value).keys = d.keys.filter (· ≠ key) ++ [key] := by
  have hkeys : (insertLast d key value).keys = (insertLast d key value).entries.map Sigma.fst := rfl
  rw [hkeys, entries_insertLast, List.map_append, ← keys_erase_eq_filter]
  rfl

theorem keys_moveToEnd {d : OrderedDict α β} {key : α} (hkey : key ∈ d) :
    (moveToEnd d key).keys = d.keys.filter (· ≠ key) ++ [key] := by
  unfold moveToEnd
  cases hvalue : d.lookup key with
  | none => exact absurd hkey (AList.lookup_eq_none.mp hvalue)
  | some value => exact keys_insertLast d key value

theorem keys_filter_setItem (d : OrderedDict α β) (key : α) (value : β) :
    (setItem d key value).keys.filter (· ≠ key) = d.keys.filter (· ≠ key) := by
  unfold setItem
  split_ifs
  · rw [AList.keys_replace]
  · rw [keys_insertLast, List.filter_append, List.filter_filter]
    simp

theorem keys_setItem (d : OrderedDict α β) (key : α) (value : β) :
    (setItem d key value).keys = if key ∈ d.keys then d.keys else d.keys ++ [key] := by
  unfold setItem
  by_cases hkey : key ∈ d
  · rw [if_pos hkey, if_pos (AList.mem_keys.mp hkey), AList.keys_replace]
  · have hall : d.keys.filter (· ≠ key) = d.keys := by
      apply List.filter_eq_self.mpr
      intro k hk
      have hne : k ≠ key := by
        rintro rfl
        exact hkey (AList.mem_keys.mpr hk)
      simpa using hne
    rw [if_neg hkey, if_neg (fun h => hkey (AList.mem_keys.mpr h)), keys_insertLast, hall]

theorem map_entries {δ : Type} (d : OrderedDict α β) (f : α → β → δ) :
    (d.entries.map fun entry => f entry.1 entry.2) =
      d.keys.filterMap fun key => (d.lookup key).map (f key) := by
  have hsome : ∀ entry ∈ d.entries, (d.lookup entry.1).map (f entry.1) =
      some (f entry.1 entry.2) := by
    intro entry hentry
    rw [AList.mem_lookup_iff.mpr hentry, Option.map_some]
  have hkeys : d.keys = d.entries.map Sigma.fst := rfl
  rw [hkeys, List.filterMap_map, ← List.filterMap_eq_map]
  apply List.filterMap_congr
  intro entry hentry
  exact (hsome entry hentry).symm

theorem values_perm_erase {d : OrderedDict α β} {key : α} {value : β}
    (h : d.lookup key = some value) : (values d).Perm (value :: values (d.erase key)) := by
  have hkey : key ∈ d.entries.keys := AList.lookup_isSome.mp (by rw [h]; rfl)
  obtain ⟨value', front, back, hfront, hentries, herase⟩ := List.exists_of_kerase hkey
  have hvalue : value' = value := by
    have hmem : (⟨key, value'⟩ : Sigma fun _ : α => β) ∈ d.entries := by
      rw [hentries]
      exact List.mem_append_right _ (List.mem_cons_self ..)
    have hlookup : d.lookup key = some value' := AList.mem_lookup_iff.mpr hmem
    exact Option.some.inj (hlookup.symm.trans h)
  subst hvalue
  have hafter : (d.erase key).entries = front ++ back := herase
  rw [values, values, hentries, hafter, List.map_append, List.map_cons, List.map_append]
  exact List.perm_middle

theorem values_moveToEnd_perm (d : OrderedDict α β) (key : α) :
    (values (moveToEnd d key)).Perm (values d) := by
  unfold moveToEnd
  cases h : d.lookup key with
  | none => exact List.Perm.refl _
  | some value =>
      rw [values_insertLast]
      exact (List.perm_append_singleton ..).trans (values_perm_erase h).symm

theorem values_setItem_of_notMem {d : OrderedDict α β} {key : α} (hkey : key ∉ d) (value : β) :
    values (setItem d key value) = values d ++ [value] := by
  rw [setItem, if_neg hkey, values_insertLast, values_erase_of_notMem hkey]

/-! ## Part of a dictionary -/

/-- The entries whose keys satisfy `p`, in their order. -/
def restrict (d : OrderedDict α β) (p : α → Bool) : OrderedDict α β where
  entries := d.entries.filter fun entry => p entry.1
  nodupKeys := d.nodupKeys.sublist List.filter_sublist

omit [DecidableEq α] in
theorem entries_restrict (d : OrderedDict α β) (p : α → Bool) :
    (restrict d p).entries = d.entries.filter fun entry => p entry.1 := rfl

omit [DecidableEq α] in
theorem keys_restrict (d : OrderedDict α β) (p : α → Bool) :
    (restrict d p).keys = d.keys.filter p :=
  (List.filter_map ..).symm

omit [DecidableEq α] in
theorem mem_restrict {d : OrderedDict α β} {p : α → Bool} {key : α} (hkey : p key = true) :
    key ∈ restrict d p ↔ key ∈ d := by
  rw [AList.mem_keys, AList.mem_keys, keys_restrict, List.mem_filter]
  exact and_iff_left hkey

theorem lookup_restrict (d : OrderedDict α β) {p : α → Bool} {key : α} (hkey : p key = true) :
    (restrict d p).lookup key = d.lookup key := by
  apply Option.ext
  intro value
  rw [← Option.mem_def, ← Option.mem_def, AList.mem_lookup_iff, AList.mem_lookup_iff]
  exact List.mem_filter.trans (and_iff_left hkey)

private theorem filter_kerase (p : α → Bool) (key : α) (entries : List (Sigma fun _ : α => β)) :
    (entries.kerase key).filter (fun entry => p entry.1) =
      if p key then (entries.filter fun entry => p entry.1).kerase key
      else entries.filter fun entry => p entry.1 := by
  induction entries with
  | nil => simp
  | cons entry entries ih =>
      by_cases hkey : key = entry.1
      · rw [List.kerase_cons_eq hkey, List.filter_cons, ← hkey]
        split_ifs
        · rw [List.kerase_cons_eq hkey]
        · rfl
      · rw [List.kerase_cons_ne hkey, List.filter_cons, List.filter_cons, ih]
        split_ifs
        · rw [List.kerase_cons_ne hkey]
        · rfl
        · rfl
        · rfl

theorem restrict_erase (d : OrderedDict α β) (p : α → Bool) (key : α) :
    restrict (d.erase key) p =
      if p key then (restrict d p).erase key else restrict d p := by
  apply AList.ext
  have hfilter := filter_kerase p key d.entries
  split_ifs at hfilter ⊢ <;> exact hfilter

private theorem filter_kreplace (p : α → Bool) (key : α) (value : β)
    (entries : List (Sigma fun _ : α => β)) :
    (entries.kreplace key value).filter (fun entry => p entry.1) =
      if p key then (entries.filter fun entry => p entry.1).kreplace key value
      else entries.filter fun entry => p entry.1 := by
  induction entries with
  | nil => simp [List.kreplace]
  | cons entry entries ih =>
      by_cases hkey : key = entry.1
      · have hhead : ∀ rest : List (Sigma fun _ : α => β),
            (entry :: rest).kreplace key value = ⟨key, value⟩ :: rest := fun rest =>
          List.lookmap_cons_some _ _ (if_pos hkey)
        rw [hhead, List.filter_cons, List.filter_cons, ← hkey]
        split_ifs
        · rw [hhead]
        · rfl
      · have htail : ∀ rest : List (Sigma fun _ : α => β),
            (entry :: rest).kreplace key value = entry :: rest.kreplace key value := fun rest =>
          List.lookmap_cons_none _ _ (if_neg hkey)
        rw [htail, List.filter_cons, List.filter_cons, ih]
        split_ifs
        · rw [htail]
        · rfl
        · rfl
        · rfl

theorem restrict_setItem (d : OrderedDict α β) (p : α → Bool) (key : α) (value : β) :
    restrict (setItem d key value) p =
      if p key then setItem (restrict d p) key value else restrict d p := by
  apply AList.ext
  by_cases hmem : key ∈ d
  · have hfilter := filter_kreplace p key value d.entries
    rw [setItem, if_pos hmem]
    split_ifs at hfilter ⊢ with hkey
    · rw [setItem, if_pos ((mem_restrict hkey).mpr hmem)]
      exact hfilter
    · exact hfilter
  · have herase := congrArg AList.entries (restrict_erase d p key)
    have hlast : (restrict (insertLast d key value) p).entries =
        (restrict (d.erase key) p).entries ++
          [(⟨key, value⟩ : Sigma fun _ : α => β)].filter fun entry => p entry.1 := by
      rw [entries_restrict, entries_insertLast, List.filter_append, entries_restrict]
    rw [setItem, if_neg hmem, hlast, herase]
    split_ifs with hkey
    · rw [setItem, if_neg (fun h => hmem ((mem_restrict hkey).mp h)), entries_insertLast,
        List.filter_cons, if_pos hkey, List.filter_nil]
    · rw [List.filter_cons, if_neg hkey, List.filter_nil, List.append_nil]

/-! ## Dictionaries with the same keys -/

section Mirrors

variable {γ : Type}

/-- The same keys in the same order, with the values that `f` makes. -/
structure Mirrors (f : α → β → γ) (d : OrderedDict α β) (d' : OrderedDict α γ) : Prop where
  keys : d'.keys = d.keys
  lookup : ∀ key, d'.lookup key = (d.lookup key).map (f key)

namespace Mirrors

variable {f : α → β → γ} {d : OrderedDict α β} {d' : OrderedDict α γ}

theorem empty (f : α → β → γ) : Mirrors f (∅ : OrderedDict α β) ∅ where
  keys := rfl
  lookup _ := by simp

theorem setItem (h : Mirrors f d d') (key : α) (value : β) :
    Mirrors f (OrderedDict.setItem d key value) (OrderedDict.setItem d' key (f key value)) where
  keys := by rw [keys_setItem, keys_setItem, h.keys]
  lookup k := by
    rw [lookup_setItem, lookup_setItem]
    split_ifs with hk
    · rw [hk, Option.map_some]
    · exact h.lookup k

theorem erase (h : Mirrors f d d') (key : α) : Mirrors f (d.erase key) (d'.erase key) where
  keys := by rw [keys_erase_eq_filter, keys_erase_eq_filter, h.keys]
  lookup k := by
    rw [lookup_erase, lookup_erase]
    split_ifs
    · rfl
    · exact h.lookup k

theorem values (h : Mirrors f d d') :
    OrderedDict.values d' = d.entries.map fun entry => f entry.1 entry.2 := by
  rw [OrderedDict.values, map_entries d' fun _ value => value, map_entries d f, h.keys]
  apply List.filterMap_congr
  intro key _
  rw [h.lookup key, Option.map_map]
  rfl

end Mirrors

end Mirrors

end OrderedDict

end LlmCache.Lib
