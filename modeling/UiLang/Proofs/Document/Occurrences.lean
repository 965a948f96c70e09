import Mathlib.Algebra.GroupWithZero.Nat
import Mathlib.Data.List.Basic
import UiLang.Text.Indent

/-!
# Where tags occur in a text

A reader of a page looks for the tags that start and end its script, its styles and its title,
whatever stands around them and in capitals or not.  How often one of them occurs in a text that is
put together is the sum over the parts, as long as none can stand across a seam.

## Main definitions

* `tagWords`: the tags that matter, without what follows their names
* `occurrences`, `occurrencesIn`, `total`: how often a word occurs in a text, or in texts
* `isTagless`, `leads`, `isParting`: fixed texts that part what stands around them
* `splitFirst`: a text around the first occurrence of a word

## Main results

* `occurrences_append`, `occurrences_append_of_getLast`: counting across a seam
* `occurrencesIn_parted`, `occurrencesIn_intercalate`: counting across fixed texts
* `splitFirst_append`, `occurrences_of_splitFirst`: what stands before the first occurrence
-/

namespace UiLang

/-- The tags that a page is cut at, in lower case. -/
def tagWords : List (List Char) :=
  ["<script", "</script", "</style", "</title"].map String.toList

/-- How often a word in lower case occurs in a text, in capitals or not. -/
def occurrences (word : List Char) : List Char → Nat
  | [] => 0
  | c :: cs =>
    (if word.isPrefixOf ((c :: cs).map Char.toLower) then 1 else 0) + occurrences word cs

/-- How often a word occurs in a text. -/
def occurrencesIn (word : List Char) (text : String) : Nat :=
  occurrences word text.toList

/-- How often a word occurs in some texts, each by itself. -/
def total (word : List Char) (texts : List String) : Nat :=
  (texts.map (occurrencesIn word)).sum

section Total

variable (word : List Char)

@[simp] theorem total_nil : total word [] = 0 :=
  rfl

@[simp] theorem total_cons (text : String) (texts : List String) :
    total word (text :: texts) = occurrencesIn word text + total word texts :=
  rfl

@[simp] theorem total_append (texts others : List String) :
    total word (texts ++ others) = total word texts + total word others := by
  rw [total, List.map_append, List.sum_append]
  rfl

/-- Texts that are each made of some others. -/
theorem total_map {α : Type} {write : α → String} {parts : α → List String} {values : List α}
    (h : ∀ value ∈ values, occurrencesIn word (write value) = total word (parts value)) :
    total word (values.map write) = total word (values.flatMap parts) := by
  induction values with
  | nil => rfl
  | cons value values ih =>
    obtain ⟨hvalue, hvalues⟩ := List.forall_mem_cons.mp h
    rw [List.map_cons, total_cons, List.flatMap_cons, total_append, hvalue, ih hvalues]

theorem total_eq_zero_iff (texts : List String) :
    total word texts = 0 ↔ ∀ text ∈ texts, occurrencesIn word text = 0 := by
  induction texts with
  | nil => simp
  | cons text texts ih => rw [total_cons, Nat.add_eq_zero_iff, ih, List.forall_mem_cons]

end Total

/-! ## Seams -/

variable {word : List Char}

theorem occurrences_cons_of_not_isPrefixOf {c : Char} {cs : List Char}
    (h : word.isPrefixOf ((c :: cs).map Char.toLower) = false) :
    occurrences word (c :: cs) = occurrences word cs := by
  rw [occurrences, h, if_neg (by decide), Nat.zero_add]

/-- A word that starts before a seam ends before it, if the text goes on there with nothing that the
word goes on with. -/
theorem isPrefixOf_append {c : Char} {front after : List Char}
    (h : ∀ d ∈ after.head?, d.toLower ∉ word.tail) :
    word.isPrefixOf ((c :: (front ++ after)).map Char.toLower) =
      word.isPrefixOf ((c :: front).map Char.toLower) := by
  rw [← List.cons_append, List.map_append, Bool.eq_iff_iff, List.isPrefixOf_iff_prefix,
    List.isPrefixOf_iff_prefix]
  refine ⟨fun hprefix => ?_, fun hprefix => hprefix.trans (List.prefix_append _ _)⟩
  obtain ⟨rest, hrest⟩ := hprefix
  rcases List.append_eq_append_iff.mp hrest with ⟨more, hfront, -⟩ | ⟨more, rfl, hafter⟩
  · exact ⟨more, hfront.symm⟩
  · cases more with
    | nil => simp
    | cons d more =>
      -- the word would go on with what stands right after the seam
      cases after with
      | nil => cases hafter
      | cons e after =>
        obtain ⟨rfl, -⟩ := List.cons.inj hafter
        exact absurd (by simp) (h e rfl)

/-- **Counting across a seam**: nothing stands across one where the text goes on with a character
that a word can only start with. -/
theorem occurrences_append {front after : List Char}
    (h : ∀ c ∈ after.head?, c.toLower ∉ word.tail) :
    occurrences word (front ++ after) = occurrences word front + occurrences word after := by
  induction front with
  | nil => rw [List.nil_append, occurrences, Nat.zero_add]
  | cons c front ih =>
    rw [List.cons_append, occurrences, occurrences, isPrefixOf_append h, ih, Nat.add_assoc]

theorem occurrences_cons_of_not_mem {c : Char} (hword : word ≠ []) (hc : c.toLower ∉ word)
    (cs : List Char) : occurrences word (c :: cs) = occurrences word cs := by
  refine occurrences_cons_of_not_isPrefixOf (Bool.eq_false_iff.mpr fun hprefix => hc ?_)
  obtain ⟨d, word, rfl⟩ := List.exists_cons_of_ne_nil hword
  obtain ⟨tail, htail⟩ := List.isPrefixOf_iff_prefix.mp hprefix
  rw [(List.cons.inj htail).1.symm]
  exact List.mem_cons_self

/-- No word stands across a character that is not in it. -/
theorem occurrences_append_of_getLast {front after : List Char} (hword : word ≠ [])
    (h : ∀ c ∈ front.getLast?, c.toLower ∉ word) :
    occurrences word (front ++ after) = occurrences word front + occurrences word after := by
  rcases List.eq_nil_or_concat front with rfl | ⟨front, c, rfl⟩
  · rw [List.nil_append, occurrences, Nat.zero_add]
  · rw [List.concat_eq_append] at h ⊢
    have hc : c.toLower ∉ word := h c (by simp)
    have htail (cs : List Char) : ∀ d ∈ (c :: cs).head?, d.toLower ∉ word.tail := by
      rintro d ⟨⟩
      exact fun hmem => hc (List.mem_of_mem_tail hmem)
    have hcons := occurrences_cons_of_not_mem hword hc
    rw [List.append_assoc, List.singleton_append, occurrences_append (htail after), hcons,
      occurrences_append (htail []), hcons, occurrences, Nat.add_zero]

/-- Only small letters come from capitals. -/
theorem eq_of_toLower_eq {c d : Char} (hd : d.toNat < 97) (h : c.toLower = d) : c = d := by
  by_cases hc : c.val ≥ 'A'.val ∧ c.val ≤ 'Z'.val
  · -- a capital becomes a small letter, and those come later
    replace h := (dif_pos hc).symm.trans h
    obtain ⟨hlow, hhigh⟩ := hc
    rw [ge_iff_le, UInt32.le_iff_toNat_le] at hlow
    rw [UInt32.le_iff_toNat_le] at hhigh
    have hA : 'A'.val.toNat = 65 := rfl
    have hZ : 'Z'.val.toNat = 90 := rfl
    have hshift : ('a'.val - 'A'.val).toNat = 32 := rfl
    have hval : d.toNat = (c.val + ('a'.val - 'A'.val)).toNat := by rw [← h]; rfl
    rw [UInt32.toNat_add, hshift] at hval
    omega
  · exact (dif_neg hc).symm.trans h

/-- A text without `<` holds no tag, and no start of one. -/
theorem occurrences_append_of_notMem {front after : List Char} (hword : word.head? = some '<')
    (h : '<' ∉ front) : occurrences word (front ++ after) = occurrences word after := by
  induction front with
  | nil => rfl
  | cons c front ih =>
    rw [List.mem_cons, not_or] at h
    rw [List.cons_append, occurrences_cons_of_not_isPrefixOf, ih h.2]
    obtain ⟨rest, rfl⟩ := List.head?_eq_some_iff.mp hword
    rw [List.map_cons, List.isPrefixOf_cons_cons, Bool.and_eq_false_iff]
    refine .inl (beq_eq_false_iff_ne.mpr fun hc => h.1 ?_)
    exact (eq_of_toLower_eq (by decide) hc.symm).symm

theorem occurrences_eq_zero_of_notMem {cs : List Char} (hword : word.head? = some '<')
    (h : '<' ∉ cs) : occurrences word cs = 0 := by
  rw [← List.append_nil cs, occurrences_append_of_notMem hword h]
  rfl

/-! ## Fixed texts -/

/-- A character that stands in no tag. -/
def isApart (c : Char) : Bool :=
  tagWords.all fun word => !word.contains c.toLower

/-- A text that holds no tag. -/
def isTagless : List Char → Bool
  | [] => true
  | c :: cs =>
    (c != '<' || tagWords.all fun word => !word.isPrefixOf ((c :: cs).map Char.toLower)) &&
      isTagless cs

/-- A text that does not start with a character of a tag. -/
def startsApart (cs : List Char) : Bool :=
  cs.head?.all isApart

/-- A text without tags that nothing stands across the end of. -/
def leads (cs : List Char) : Bool :=
  cs.getLast?.any isApart && isTagless cs

/-- A text without tags that parts what stands on its two sides. -/
def isParting (cs : List Char) : Bool :=
  startsApart cs && leads cs

theorem startsApart_append {text after : String} (h : startsApart text.toList = true)
    (hafter : startsApart after.toList = true) : startsApart (text ++ after).toList = true := by
  unfold startsApart at h hafter ⊢
  rw [String.toList_append, List.head?_append]
  cases hhead : text.toList.head? with
  | none => exact hafter
  | some c => rwa [hhead] at h

/-- What a fixed text starts with is not changed by what follows it. -/
theorem startsApart_parting {cs : List Char} (h : isParting cs = true) (after : String) :
    startsApart (String.ofList cs ++ after).toList = true := by
  rw [isParting, leads, Bool.and_eq_true, Bool.and_eq_true] at h
  rw [String.toList_append, String.toList_ofList]
  cases cs with
  | nil => exact absurd h.2.1 (by decide)
  | cons c cs => exact h.1

theorem startsApart_join {texts : List String}
    (h : ∀ text ∈ texts, startsApart text.toList = true) :
    startsApart (String.join texts).toList = true := by
  induction texts with
  | nil => rfl
  | cons text texts ih =>
    obtain ⟨htext, htexts⟩ := List.forall_mem_cons.mp h
    rw [String.join_cons]
    exact startsApart_append htext (ih htexts)

section Counting

variable (hword : word ∈ tagWords)

include hword

theorem head?_of_mem_tagWords : word.head? = some '<' := by
  revert word
  decide

theorem ne_nil_of_mem_tagWords : word ≠ [] := by
  rintro rfl
  cases head?_of_mem_tagWords hword

theorem toLower_notMem_of_isApart {c : Char} (hc : isApart c = true) : c.toLower ∉ word := by
  have hall := List.all_eq_true.mp hc word hword
  simpa using hall

theorem occurrences_cons_of_isApart {c : Char} (hc : isApart c = true) (cs : List Char) :
    occurrences word (c :: cs) = occurrences word cs :=
  occurrences_cons_of_not_mem (ne_nil_of_mem_tagWords hword) (toLower_notMem_of_isApart hword hc) cs

theorem occurrences_of_isTagless {cs : List Char} (h : isTagless cs = true) :
    occurrences word cs = 0 := by
  induction cs with
  | nil => rfl
  | cons c cs ih =>
    rw [isTagless, Bool.and_eq_true, Bool.or_eq_true] at h
    obtain ⟨hc | hnone, htail⟩ := h
    · have hnotMem : '<' ∉ [c] := fun hmem => by
        rw [← List.mem_singleton.mp hmem] at hc
        exact absurd hc (by decide)
      rw [← List.singleton_append, occurrences_append_of_notMem (head?_of_mem_tagWords hword) hnotMem,
        ih htail]
    · rw [occurrences_cons_of_not_isPrefixOf, ih htail]
      simpa using List.all_eq_true.mp hnone word hword

/-- Fixed text without tags. -/
theorem occurrencesIn_fixed {cs : List Char} (h : isTagless cs = true) :
    occurrencesIn word (String.ofList cs) = 0 := by
  rw [occurrencesIn, String.toList_ofList, occurrences_of_isTagless hword h]

theorem occurrencesIn_append {after : String} (h : startsApart after.toList = true)
    (front : String) :
    occurrencesIn word (front ++ after) = occurrencesIn word front + occurrencesIn word after := by
  rw [occurrencesIn, String.toList_append]
  refine occurrences_append fun c hc hmem => ?_
  rw [startsApart, Option.mem_def.mp hc] at h
  exact toLower_notMem_of_isApart hword h (List.mem_of_mem_tail hmem)

theorem occurrencesIn_leading {cs : List Char} (h : leads cs = true) (after : String) :
    occurrencesIn word (String.ofList cs ++ after) = occurrencesIn word after := by
  rw [leads, Bool.and_eq_true] at h
  rw [occurrencesIn, String.toList_append, String.toList_ofList, occurrences_append_of_getLast,
    occurrences_of_isTagless hword h.2, Nat.zero_add]
  · rfl
  · exact ne_nil_of_mem_tagWords hword
  · intro c hc
    rw [Option.mem_def.mp hc] at h
    exact toLower_notMem_of_isApart hword h.1

theorem occurrencesIn_trailing {cs : List Char} (h : isParting cs = true) (front : String) :
    occurrencesIn word (front ++ String.ofList cs) = occurrencesIn word front := by
  rw [isParting, leads, Bool.and_eq_true, Bool.and_eq_true] at h
  rw [occurrencesIn_append hword, occurrencesIn_fixed hword h.2.2, Nat.add_zero]
  rw [String.toList_ofList]
  exact h.1

/-- **Counting across a fixed text** that parts what stands on its two sides. -/
theorem occurrencesIn_parted {gap : List Char} (h : isParting gap = true) (front after : String) :
    occurrencesIn word (front ++ String.ofList gap ++ after) =
      occurrencesIn word front + occurrencesIn word after := by
  have hleads : leads gap = true := (Bool.and_eq_true_iff.mp h).2
  rw [String.append_assoc, occurrencesIn_append hword (startsApart_parting h after),
    occurrencesIn_leading hword hleads]

theorem occurrencesIn_intercalate {gap : List Char} (h : isParting gap = true)
    (texts : List String) :
    occurrencesIn word ((String.ofList gap).intercalate texts) = total word texts := by
  induction texts with
  | nil => rfl
  | cons text texts ih =>
    cases texts with
    | nil => simp
    | cons next texts =>
      rw [String.intercalate_cons_cons, occurrencesIn_parted hword h, ih, total_cons word text]

/-- Texts one after another, none of which starts with a character of a tag. -/
theorem occurrencesIn_join {texts : List String}
    (h : ∀ text ∈ texts, startsApart text.toList = true) :
    occurrencesIn word (String.join texts) = total word texts := by
  induction texts with
  | nil => rfl
  | cons text texts ih =>
    obtain ⟨-, htexts⟩ := List.forall_mem_cons.mp h
    rw [String.join_cons, occurrencesIn_append hword (startsApart_join htexts), ih htexts,
      total_cons]

end Counting

/-! ## The first occurrence -/

/-- What stands before the first occurrence of a word, and what follows it. -/
def splitFirst (word : List Char) : List Char → Option (List Char × List Char)
  | [] => none
  | c :: cs =>
    if word.isPrefixOf ((c :: cs).map Char.toLower) then some ([], (c :: cs).drop word.length)
    else (splitFirst word cs).map fun parts => (c :: parts.1, parts.2)

/-- **What a text is cut to**: the part in front of the first occurrence. -/
theorem splitFirst_append {front after : List Char} (hword : word ≠ [])
    (hfront : occurrences word front = 0) (hhead : ∀ c ∈ after.head?, c.toLower ∉ word.tail)
    (hafter : word.isPrefixOf (after.map Char.toLower) = true) :
    splitFirst word (front ++ after) = some (front, after.drop word.length) := by
  induction front with
  | nil =>
    cases after with
    | nil =>
      rw [List.map_nil, List.isPrefixOf_iff_prefix, List.prefix_nil] at hafter
      exact absurd hafter hword
    | cons c after => rw [List.nil_append, splitFirst, if_pos hafter]
  | cons c front ih =>
    rw [occurrences, Nat.add_eq_zero_iff] at hfront
    obtain ⟨hnot, hfront⟩ := hfront
    rw [List.cons_append, splitFirst, isPrefixOf_append hhead, ih hfront, if_neg]
    · rfl
    · intro hprefix
      rw [if_pos hprefix] at hnot
      cases hnot

theorem isPrefix_of_splitFirst {cs front after : List Char}
    (h : splitFirst word cs = some (front, after)) : front <+: cs := by
  induction cs generalizing front with
  | nil => cases h
  | cons c cs ih =>
    rw [splitFirst] at h
    split at h
    · cases h
      exact List.nil_prefix
    · obtain ⟨parts, hparts, heq⟩ := Option.map_eq_some_iff.mp h
      cases heq
      exact List.cons_prefix_cons.mpr ⟨rfl, ih hparts⟩

/-- In front of the first occurrence there is none. -/
theorem occurrences_of_splitFirst {cs front after : List Char}
    (h : splitFirst word cs = some (front, after)) : occurrences word front = 0 := by
  induction cs generalizing front with
  | nil => cases h
  | cons c cs ih =>
    rw [splitFirst] at h
    split at h
    · cases h
      rfl
    · rename_i hnot
      obtain ⟨parts, hparts, heq⟩ := Option.map_eq_some_iff.mp h
      cases heq
      rw [occurrences_cons_of_not_isPrefixOf, ih hparts]
      refine Bool.eq_false_iff.mpr fun hprefix => hnot ?_
      have hcons : c :: parts.1 <+: c :: cs :=
        List.cons_prefix_cons.mpr ⟨rfl, isPrefix_of_splitFirst hparts⟩
      rw [List.isPrefixOf_iff_prefix] at hprefix ⊢
      exact hprefix.trans (hcons.map Char.toLower)

end UiLang
