import Mathlib.Data.List.Nodup

/-! What a call of `str_replace` does to a subject. The searches go over the text one after the
other; a string replaces whatever is found, of a list the i-th text replaces the i-th search, and
the empty text where the list has ended. -/

namespace PhpLint.ReplaceCall

abbrev Bytes := List UInt8

/-- Of the occurrence replaced last `skip` bytes are still to be passed over. -/
def replaceFrom (search replacement : Bytes) : Nat → Bytes → Bytes
  | _, [] => []
  | skip + 1, _ :: text => replaceFrom search replacement skip text
  | 0, c :: text =>
    if search.isPrefixOf (c :: text) then
      replacement ++ replaceFrom search replacement (search.length - 1) text
    else c :: replaceFrom search replacement 0 text

/-- Replaces what is found from left to right, without overlaps. An empty search finds nothing. -/
def replaceAll (search replacement text : Bytes) : Bytes :=
  if search.isEmpty then text else replaceFrom search replacement 0 text

/-- The value of a search or a replacement. -/
inductive Argument where
  | one (text : Bytes)
  | many (texts : List Bytes)
  deriving DecidableEq, Repr

namespace Argument

def texts : Argument → List Bytes
  | one text => [text]
  | many texts => texts

def isOne : Argument → Bool
  | one _ => true
  | many _ => false

/-- What replaces the search at a place. -/
def entry : Argument → Nat → Bytes
  | one text, _ => text
  | many texts, i => texts[i]?.getD []

end Argument

/-- A string is never searched for with a list of replacements. -/
def Accepted (search replacement : Argument) : Prop := search.isOne → replacement.isOne

def pairUp : List Bytes → List Bytes → List (Bytes × Bytes)
  | [], _ => []
  | s :: searches, [] => (s, []) :: pairUp searches []
  | s :: searches, r :: replacements => (s, r) :: pairUp searches replacements

/-- Each search with what replaces it. -/
def pairs (search : Argument) : Argument → List (Bytes × Bytes)
  | .one replacement => search.texts.map fun s => (s, replacement)
  | .many replacements => pairUp search.texts replacements

def replaceEach (pairs : List (Bytes × Bytes)) (text : Bytes) : Bytes :=
  pairs.foldl (fun text p => replaceAll p.1 p.2 text) text

def run (search replacement : Argument) (subject : Bytes) : Bytes :=
  replaceEach (pairs search replacement) subject

variable {search replacement text : Bytes} {searches replacements : List Bytes}
  {ps qs : List (Bytes × Bytes)}

theorem replaceEach_append (ps qs : List (Bytes × Bytes)) (text : Bytes) :
    replaceEach (ps ++ qs) text = replaceEach qs (replaceEach ps text) := List.foldl_append ..

/-! Occurrences. -/

theorem replaceFrom_skip (skip : Nat) (text : Bytes) :
    replaceFrom search replacement skip text =
      replaceFrom search replacement 0 (text.drop skip) := by
  induction skip generalizing text with
  | zero => rfl
  | succ skip ih =>
    cases text with
    | nil => rfl
    | cons c text => rw [replaceFrom, ih, List.drop_succ_cons]

theorem replaceAll_nil_search : replaceAll [] replacement text = text := rfl

theorem replaceAll_nil : replaceAll search replacement [] = [] := by
  cases search <;> rfl

theorem replaceAll_append_self (hs : search ≠ []) (text : Bytes) :
    replaceAll search replacement (search ++ text) =
      replacement ++ replaceAll search replacement text := by
  obtain ⟨c, cs, rfl⟩ := List.exists_cons_of_ne_nil hs
  have found : (c :: cs).isPrefixOf (c :: (cs ++ text)) = true :=
    List.isPrefixOf_iff_prefix.2 (List.prefix_append ..)
  simp only [replaceAll, List.isEmpty_cons, Bool.false_eq_true, if_false, List.cons_append]
  rw [replaceFrom, if_pos found, replaceFrom_skip]
  simp

theorem replaceAll_self (hs : search ≠ []) :
    replaceAll search replacement search = replacement := by
  have hself : replaceAll search replacement (search ++ []) = replacement ++ _ :=
    replaceAll_append_self hs []
  rwa [replaceAll_nil, List.append_nil, List.append_nil] at hself

theorem replaceAll_cons {c : UInt8} (h : ¬ search <+: c :: text) :
    replaceAll search replacement (c :: text) = c :: replaceAll search replacement text := by
  cases search with
  | nil => rfl
  | cons s search =>
    have absent : ¬ (s :: search).isPrefixOf (c :: text) = true :=
      fun found => h (List.isPrefixOf_iff_prefix.1 found)
    simp only [replaceAll, List.isEmpty_cons, Bool.false_eq_true, if_false]
    rw [replaceFrom, if_neg absent]

/-- A text is passed over byte by byte up to the next occurrence. -/
theorem occurrence_induction {motive : Bytes → Prop} (search : Bytes) (hs : search ≠ [])
    (nil : motive []) (found : ∀ text, motive text → motive (search ++ text))
    (passed : ∀ c text, ¬ search <+: c :: text → motive text → motive (c :: text)) :
    ∀ text, motive text := by
  intro text
  generalize hlen : text.length = len
  induction len using Nat.strongRecOn generalizing text with
  | ind len ih =>
    cases text with
    | nil => exact nil
    | cons c text =>
      by_cases h : search <+: c :: text
      · obtain ⟨rest, hrest⟩ := h
        have hpos := List.length_pos_of_ne_nil hs
        rw [← hrest, List.length_append] at hlen
        rw [← hrest]
        exact found rest (ih rest.length (by omega) rest rfl)
      · rw [List.length_cons] at hlen
        exact passed c text h (ih text.length (by omega) text rfl)

theorem replaceAll_of_absent (h : ¬ search <:+: text) :
    replaceAll search replacement text = text := by
  induction text with
  | nil => exact replaceAll_nil
  | cons c text ih =>
    rw [List.infix_cons_iff, not_or] at h
    rw [replaceAll_cons h.1, ih h.2]

/-! Pairs. -/

theorem getElem?_pairUp (searches replacements : List Bytes) (i : Nat) :
    (pairUp searches replacements)[i]? =
      searches[i]?.map fun s => (s, replacements[i]?.getD []) := by
  induction searches generalizing replacements i with
  | nil => simp [pairUp]
  | cons s searches ih =>
    cases replacements with
    | nil => cases i <;> simp [pairUp, ih]
    | cons r replacements => cases i <;> simp [pairUp, ih]

theorem getElem?_pairs (search replacement : Argument) (i : Nat) :
    (pairs search replacement)[i]? =
      search.texts[i]?.map fun s => (s, replacement.entry i) := by
  cases replacement with
  | one r => exact List.getElem?_map ..
  | many rs => exact getElem?_pairUp ..

theorem map_fst_pairUp (searches replacements : List Bytes) :
    (pairUp searches replacements).map Prod.fst = searches := by
  induction searches generalizing replacements with
  | nil => rfl
  | cons s searches ih => cases replacements <;> simp [pairUp, ih]

theorem map_fst_pairs (search replacement : Argument) :
    (pairs search replacement).map Prod.fst = search.texts := by
  cases replacement with
  | one r =>
    rw [pairs, List.map_map]
    exact List.map_id _
  | many rs => exact map_fst_pairUp ..

theorem length_pairs (search replacement : Argument) :
    (pairs search replacement).length = search.texts.length := by
  rw [← map_fst_pairs search replacement, List.length_map]

/-- Nothing is put in but the empty text and what the list has. -/
theorem snd_mem_of_mem_pairUp {p : Bytes × Bytes} (h : p ∈ pairUp searches replacements) :
    p.2 = [] ∨ p.2 ∈ replacements := by
  obtain ⟨i, hi⟩ := List.getElem?_of_mem h
  rw [getElem?_pairUp] at hi
  obtain ⟨s, -, rfl⟩ := Option.map_eq_some_iff.1 hi
  cases hr : replacements[i]? with
  | none => exact .inl rfl
  | some r => exact .inr (List.mem_of_getElem? hr)

theorem snd_mem_of_mem_pairs {search replacement : Argument} {p : Bytes × Bytes}
    (h : p ∈ pairs search replacement) : p.2 = [] ∨ p.2 ∈ replacement.texts := by
  cases replacement with
  | one r =>
    obtain ⟨s, -, rfl⟩ := List.mem_map.1 h
    exact .inr (List.mem_singleton.2 rfl)
  | many rs => exact snd_mem_of_mem_pairUp h

/-- Two calls are one with the searches of both where each search keeps what replaces it. -/
theorem pairs_eq_append_iff {earlier later replacement a b : Argument} :
    pairs (.many (earlier.texts ++ later.texts)) replacement = pairs earlier a ++ pairs later b ↔
      (∀ i < earlier.texts.length, replacement.entry i = a.entry i) ∧
        ∀ i < later.texts.length, replacement.entry (earlier.texts.length + i) = b.entry i := by
  have hsplit (i : Nat) : (pairs earlier a ++ pairs later b)[i]? =
      if i < earlier.texts.length then earlier.texts[i]?.map fun s => (s, a.entry i)
      else later.texts[i - earlier.texts.length]?.map fun s =>
        (s, b.entry (i - earlier.texts.length)) := by
    rw [List.getElem?_append, length_pairs, getElem?_pairs, getElem?_pairs]
  rw [List.ext_getElem?_iff]
  constructor
  · refine fun h => ⟨fun i hi => ?_, fun i hi => ?_⟩
    · have := h i
      rw [hsplit, if_pos hi, getElem?_pairs, Argument.texts, List.getElem?_append_left hi,
        List.getElem?_eq_getElem hi] at this
      simpa using this
    · have := h (earlier.texts.length + i)
      rw [hsplit, if_neg (by omega), getElem?_pairs, Argument.texts,
        List.getElem?_append_right (by omega), Nat.add_sub_cancel_left,
        List.getElem?_eq_getElem hi] at this
      simpa using this
  · rintro ⟨hleft, hright⟩ i
    rw [hsplit, getElem?_pairs, Argument.texts, List.getElem?_append]
    by_cases hi : i < earlier.texts.length
    · rw [if_pos hi, if_pos hi, hleft i hi]
    · rw [if_neg hi, if_neg hi]
      by_cases hi' : i - earlier.texts.length < later.texts.length
      · have := hright _ hi'
        rw [Nat.add_sub_cancel' (Nat.not_lt.1 hi)] at this
        rw [this]
      · rw [List.getElem?_eq_none (by omega)]
        rfl

/-! Searches that do not disturb each other. -/

/-- No search is found in another one, and none in a replacement. -/
structure Apart (searches replacements : List Bytes) : Prop where
  ne_nil : ∀ s ∈ searches, s ≠ []
  pairwise : searches.Pairwise fun s s' => ¬ s <:+: s' ∧ ¬ s' <:+: s
  clear : ∀ s ∈ searches, ∀ r ∈ replacements, ¬ s <:+: r

theorem replaceEach_of_absent (h : ∀ p ∈ ps, ¬ p.1 <:+: text) : replaceEach ps text = text := by
  induction ps with
  | nil => rfl
  | cons p ps ih =>
    rw [List.forall_mem_cons] at h
    rw [replaceEach, List.foldl_cons, replaceAll_of_absent h.1]
    exact ih h.2

/-- What replaces a search is seen where the search itself is the subject. -/
theorem Apart.replaceEach_eq (h : Apart (ps.map Prod.fst) replacements)
    (replaced : ∀ p ∈ ps, p.2 = [] ∨ p.2 ∈ replacements) {p : Bytes × Bytes} (hp : p ∈ ps) :
    replaceEach ps p.1 = p.2 := by
  obtain ⟨before, behind, rfl⟩ := List.append_of_mem hp
  have mem (q : Bytes × Bytes) (hq : q ∈ before ++ p :: behind) :
      q.1 ∈ (before ++ p :: behind).map Prod.fst := List.mem_map_of_mem hq
  have pairwise := h.pairwise
  rw [List.map_append, List.pairwise_append] at pairwise
  have early : replaceEach before p.1 = p.1 := replaceEach_of_absent fun q hq =>
    (pairwise.2.2 _ (List.mem_map_of_mem hq) _ (List.mem_cons_self ..)).1
  have late : replaceEach behind p.2 = p.2 := replaceEach_of_absent fun q hq => by
    have hq : q ∈ before ++ p :: behind := List.mem_append_right _ (.tail _ hq)
    rcases replaced p hp with empty | known
    · rw [empty, List.infix_nil]
      exact h.ne_nil _ (mem q hq)
    · exact h.clear _ (mem q hq) _ known
  rw [replaceEach_append, early, replaceEach, List.foldl_cons,
    replaceAll_self (h.ne_nil _ (mem p hp))]
  exact late

/-- Two ways to replace the same searches that no subject tells apart are one. -/
theorem Apart.eq_of_replaceEach_eq (h : Apart (ps.map Prod.fst) replacements)
    (fst : qs.map Prod.fst = ps.map Prod.fst)
    (hps : ∀ p ∈ ps, p.2 = [] ∨ p.2 ∈ replacements)
    (hqs : ∀ q ∈ qs, q.2 = [] ∨ q.2 ∈ replacements)
    (same : ∀ text, replaceEach ps text = replaceEach qs text) : ps = qs := by
  have length : ps.length = qs.length := by
    have := congrArg List.length fst
    rw [List.length_map, List.length_map] at this
    exact this.symm
  refine List.ext_getElem length fun i hi hi' => ?_
  have search : ps[i].1 = qs[i].1 := by
    have := List.getElem_of_eq fst (i := i) (by rwa [List.length_map])
    rw [List.getElem_map, List.getElem_map] at this
    exact this.symm
  have hq := (fst.symm ▸ h : Apart (qs.map Prod.fst) replacements).replaceEach_eq hqs
    (List.getElem_mem hi')
  have hp := h.replaceEach_eq hps (List.getElem_mem hi)
  refine Prod.ext search ?_
  rw [← hp, ← hq, same, search]

end PhpLint.ReplaceCall
