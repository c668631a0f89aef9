import Mathlib.Data.List.DropRight
import PhpLint.Hierarchy.ClassName
import PhpLint.Proofs.Text.Lower

/-! When the normal form of a class name is its own normal form. White space goes before the leading
separators do, so what stands behind them may begin with white space again; with a separator in front
of it every normal form is kept. In a namespace, names stay as different as they are. -/

namespace PhpLint.ClassName

variable {name : String} {text : List Char} {c : Char}

theorem toList_toLower (name : String) : name.toLower.toList = name.toList.map Char.toLower :=
  String.toList_map

theorem map_toLower_map_toLower (text : List Char) :
    (text.map Char.toLower).map Char.toLower = text.map Char.toLower := by
  rw [List.map_map]
  exact List.map_congr_left fun c _ => Text.toLower_toLower c

theorem isBlank_toLower (c : Char) : Text.isBlank c.toLower = Text.isBlank c := by
  simp only [Text.isBlank, Text.toNat_toLower]
  grind

theorem toLower_eq_separator (c : Char) : (c.toLower == '\\') = (c == '\\') := by
  rw [Bool.eq_iff_iff, beq_iff_eq, beq_iff_eq, Text.toLower_eq_iff (by decide) (by decide)]

theorem dropWhile_separator_map_toLower (text : List Char) :
    (text.map Char.toLower).dropWhile (· == '\\') =
      (text.dropWhile (· == '\\')).map Char.toLower := by
  have hseparator : (· == '\\') ∘ Char.toLower = (· == '\\') := funext toLower_eq_separator
  rw [List.dropWhile_map, hseparator]

theorem dropWhile_isBlank_map_toLower (text : List Char) :
    (text.map Char.toLower).dropWhile Text.isBlank =
      (text.dropWhile Text.isBlank).map Char.toLower := by
  have hblank : Text.isBlank ∘ Char.toLower = Text.isBlank := funext isBlank_toLower
  rw [List.dropWhile_map, hblank]

theorem rdropWhile_isBlank_map_toLower (text : List Char) :
    (text.map Char.toLower).rdropWhile Text.isBlank =
      (text.rdropWhile Text.isBlank).map Char.toLower := by
  rw [List.rdropWhile, List.rdropWhile, ← List.map_reverse, dropWhile_isBlank_map_toLower,
    List.map_reverse]

/-- Trimming, on characters. -/
def trimmed (text : List Char) : List Char :=
  (text.dropWhile Text.isBlank).rdropWhile Text.isBlank

/-- What is left of a name without white space around it and without leading separators. -/
def core (text : List Char) : List Char := (trimmed text).dropWhile (· == '\\')

theorem toList_trim (name : String) : (Text.trim name).toList = trimmed name.toList := by
  simp [Text.trim, Text.trimStart, Text.trimEnd, trimmed, List.rdropWhile]

theorem toList_normalize (name : String) :
    (normalize name).toList = (core name.toList).map Char.toLower := by
  rw [normalize, toList_toLower, dropSeparators, String.toList_ofList, toList_trim, core]

theorem trimmed_map_toLower (text : List Char) :
    trimmed (text.map Char.toLower) = (trimmed text).map Char.toLower := by
  rw [trimmed, dropWhile_isBlank_map_toLower, rdropWhile_isBlank_map_toLower, trimmed]

theorem core_map_toLower (text : List Char) :
    core (text.map Char.toLower) = (core text).map Char.toLower := by
  rw [core, trimmed_map_toLower, dropWhile_separator_map_toLower, core]

/-- No end of a trimmed text ends in white space. -/
theorem rdropWhile_of_suffix {text' : List Char} (h : text' <:+ trimmed text) :
    text'.rdropWhile Text.isBlank = text' := by
  rw [List.rdropWhile_eq_self_iff]
  intro hne
  obtain ⟨before, hbefore⟩ := h
  have hwhole : trimmed text ≠ [] := by
    rw [← hbefore]
    exact List.append_ne_nil_of_right_ne_nil _ hne
  have hlast := List.rdropWhile_last_not Text.isBlank (text.dropWhile Text.isBlank) hwhole
  have hsame : (trimmed text).getLast hwhole = text'.getLast hne := by
    simp only [← hbefore, List.getLast_append_of_ne_nil _ hne]
  rwa [← hsame]

theorem trimmed_eq_of_suffix {text' : List Char} (h : text' <:+ trimmed text)
    (hhead : ∀ c ∈ text'.head?, Text.isBlank c = false) : trimmed text' = text' := by
  have hfront : text'.dropWhile Text.isBlank = text' := by
    cases text' with
    | nil => rfl
    | cons c rest => exact List.dropWhile_cons_of_neg (by simp [hhead c rfl])
  rw [trimmed, hfront, rdropWhile_of_suffix h]

theorem head?_trimmed (hc : c ∈ (trimmed text).head?) : Text.isBlank c = false := by
  obtain ⟨rest, hrest⟩ := List.head?_eq_some_iff.1 hc
  obtain ⟨behind, hbehind⟩ : trimmed text <+: text.dropWhile Text.isBlank :=
    List.rdropWhile_prefix _ _
  have hfront := List.head?_dropWhile_not Text.isBlank text
  rwa [← hbehind, hrest, List.cons_append, List.head?_cons] at hfront

theorem trimmed_trimmed (text : List Char) : trimmed (trimmed text) = trimmed text :=
  trimmed_eq_of_suffix List.suffix_rfl fun _ => head?_trimmed

theorem normalize_trim (name : String) : normalize (Text.trim name) = normalize name := by
  rw [← String.toList_inj, toList_normalize, toList_normalize, toList_trim, core, trimmed_trimmed,
    core]

theorem core_sublist (text : List Char) : (core text).Sublist text :=
  (List.dropWhile_suffix _).sublist.trans <|
    (List.rdropWhile_prefix _ _).sublist.trans (List.dropWhile_suffix _).sublist

/-- Taking the core again changes nothing, unless it begins with white space. -/
theorem core_core_eq_iff :
    core (core text) = core text ↔ ∀ c ∈ (core text).head?, Text.isBlank c = false := by
  constructor
  · intro h c hc
    cases hcore : core text with
    | nil => rw [hcore] at hc; cases hc
    | cons d rest =>
      obtain rfl : d = c := by rw [hcore] at hc; exact Option.some.inj hc
      by_contra hblank
      have hskip : core (d :: rest) = core rest := by
        rw [core, trimmed, List.dropWhile_cons_of_pos (by simpa using hblank), core, trimmed]
      have hshort : (core (d :: rest)).length ≤ rest.length := by
        rw [hskip]
        exact (core_sublist rest).length_le
      rw [hcore] at h
      rw [h] at hshort
      exact Nat.not_succ_le_self _ hshort
  · intro h
    have htrimmed : trimmed (core text) = core text :=
      trimmed_eq_of_suffix (List.dropWhile_suffix _) h
    rw [core, htrimmed, core, List.dropWhile_idempotent]

/-- No white space stands right behind the leading separators. -/
def Settled (name : String) : Prop :=
  ∀ c ∈ (dropSeparators (Text.trim name)).toList.head?, Text.isBlank c = false

theorem normalize_normalize_iff : normalize (normalize name) = normalize name ↔ Settled name := by
  have hcore : ((dropSeparators (Text.trim name)).toList) = core name.toList := by
    rw [dropSeparators, String.toList_ofList, toList_trim, core]
  rw [Settled, hcore, ← core_core_eq_iff, ← String.toList_inj, toList_normalize, toList_normalize,
    core_map_toLower, map_toLower_map_toLower]
  refine ⟨fun h => (core_sublist _).eq_of_length ?_, congrArg _⟩
  simpa using congrArg List.length h

theorem separator_notMem_short (name : String) : '\\' ∉ (short name).toList := by
  rw [short, String.toList_ofList, List.mem_reverse]
  intro h
  have := List.mem_takeWhile_imp h
  simp at this

theorem toList_qualify {scope : String} (hscope : scope ≠ "") (name : String) :
    (qualify scope name).toList = scope.toList ++ '\\' :: name.toList := by
  simp [qualify, hscope]

theorem short_qualify {scope : String} (hname : '\\' ∉ name.toList) :
    short (qualify scope name) = name := by
  have hall : ∀ c ∈ name.toList.reverse, (c != '\\') = true := fun c hc =>
    bne_iff_ne.2 fun heq => hname (heq ▸ List.mem_reverse.1 hc)
  by_cases hscope : scope = ""
  · subst hscope
    rw [short, qualify, if_pos (by decide), List.takeWhile_eq_self_iff.2 hall]
    simp
  · rw [short, toList_qualify hscope, List.reverse_append, List.reverse_cons, List.append_assoc,
      List.takeWhile_append_of_pos hall]
    simp

/-- What a namespace puts in front of a name. -/
def lead (scope : String) : List Char := if scope = "" then [] else scope.toList ++ ['\\']

theorem toList_qualify_eq_append (scope name : String) :
    (qualify scope name).toList = lead scope ++ name.toList := by
  by_cases hscope : scope = ""
  · subst hscope
    rfl
  · rw [toList_qualify hscope, lead, if_neg hscope, List.append_assoc, List.singleton_append]

theorem lead_injective : Function.Injective lead := fun scope scope' h => by
  by_cases hscope : scope = "" <;> by_cases hscope' : scope' = "" <;>
    simp_all [lead, String.toList_inj]

theorem qualify_left_inj {scope scope' : String} :
    qualify scope name = qualify scope' name ↔ scope = scope' := by
  rw [← String.toList_inj, toList_qualify_eq_append, toList_qualify_eq_append,
    List.append_left_inj, lead_injective.eq_iff]

theorem qualify_right_inj {scope name' : String} :
    qualify scope name = qualify scope name' ↔ name = name' := by
  rw [← String.toList_inj, toList_qualify_eq_append, toList_qualify_eq_append,
    List.append_right_inj, String.toList_inj]

/-- Names without separators are told apart with their namespaces. -/
theorem qualify_inj {scope scope' name' : String} (hname : '\\' ∉ name.toList)
    (hname' : '\\' ∉ name'.toList) :
    qualify scope name = qualify scope' name' ↔ scope = scope' ∧ name = name' := by
  refine ⟨fun h => ?_, fun h => by rw [h.1, h.2]⟩
  have hshort := congrArg short h
  rw [short_qualify hname, short_qualify hname'] at hshort
  subst hshort
  exact ⟨qualify_left_inj.1 h, rfl⟩

/-- Lower case, with no separator in front and no white space behind. In front there may be white
space. -/
structure Normal (text : List Char) : Prop where
  map_toLower_eq : text.map Char.toLower = text
  dropWhile_eq : text.dropWhile (· == '\\') = text
  rdropWhile_eq : text.rdropWhile Text.isBlank = text

theorem normal_normalize (name : String) : Normal (normalize name).toList := by
  rw [toList_normalize]
  refine ⟨map_toLower_map_toLower _, ?_, ?_⟩
  · rw [dropWhile_separator_map_toLower, core, List.dropWhile_idempotent]
  · have hcore : (core name.toList).rdropWhile Text.isBlank = core name.toList :=
      rdropWhile_of_suffix (List.dropWhile_suffix _)
    rw [rdropWhile_isBlank_map_toLower, hcore]

theorem rdropWhile_append_separator (before : List Char)
    (h : text.rdropWhile Text.isBlank = text) :
    (before ++ '\\' :: text).rdropWhile Text.isBlank = before ++ '\\' :: text := by
  rw [List.rdropWhile_eq_self_iff] at h ⊢
  intro hne
  rw [List.getLast_append_of_ne_nil hne (List.cons_ne_nil _ _)]
  cases text with
  | nil => decide
  | cons c rest =>
    rw [List.getLast_cons (List.cons_ne_nil c rest)]
    exact h (List.cons_ne_nil c rest)

namespace Normal

theorem qualify {scope : String} (hscope : Normal scope.toList) (hname : Normal name.toList) :
    Normal (ClassName.qualify scope name).toList := by
  by_cases hempty : scope = ""
  · subst hempty
    exact hname
  · rw [toList_qualify hempty]
    refine ⟨?_, ?_, rdropWhile_append_separator _ hname.rdropWhile_eq⟩
    · have hseparator : '\\'.toLower = '\\' := by decide
      rw [List.map_append, List.map_cons, hscope.map_toLower_eq, hname.map_toLower_eq, hseparator]
    · rw [List.dropWhile_append, hscope.dropWhile_eq, if_neg (by simpa using hempty)]

/-- Written with a separator in front, a normal form is found again. -/
theorem normalize_absolute (h : Normal name.toList) : normalize ("\\" ++ name) = name := by
  have htext : ("\\" ++ name).toList = '\\' :: name.toList := by simp
  have htrimmed : trimmed ('\\' :: name.toList) = '\\' :: name.toList := by
    rw [trimmed, List.dropWhile_cons_of_neg (by decide)]
    exact rdropWhile_append_separator [] h.rdropWhile_eq
  rw [← String.toList_inj, toList_normalize, htext, core, htrimmed,
    List.dropWhile_cons_of_pos (by decide), h.dropWhile_eq, h.map_toLower_eq]

end Normal

end PhpLint.ClassName
