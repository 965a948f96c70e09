import Mathlib.Data.List.Infix
import Mathlib.Data.List.Nodup
import UiLang.View.Props

/-!
# Filling in all props at once

The texts of props are put into a text one prop after another, so a text that was put in is searched
for the props that follow.  To fill in all props at once is to go through the original text and to
put in the text of a prop wherever its placeholder stands there; what was put in is not looked at
again.

Placeholders with names that have no braces never overlap.  A text may therefore be cut in front of
an opening brace and behind a closing one, and filling goes part by part.  One prop that is put into
a filled text does the same as filling it in with the others exactly if the others bring no new
placeholder of it, inside their texts or with braces that were there.

## Main definitions

* `PropValues.WellNamed`: names that differ and have no braces
* `PropValues.fillFrom`, `PropValues.fill`: all props filled in at once
* `placeholderCount`: how often a placeholder stands in a text
* `Parted`: a cut that goes through no placeholder

## Main results

* `PropValues.fillFrom_append`, `placeholderCount_append`: a cut text is filled part by part
* `PropValues.fillFrom_perm`: the order of the props does not matter when all are filled in at once
* `PropValues.length_fillFrom`: how long a filled text is
* `PropValues.fillFrom_singleton_eq_iff`: one more prop, put into the filled text or filled in with
  the others
* `PropValues.placeholderCount_le_fillFrom`: filling in keeps the placeholders of other props
-/

namespace UiLang

/-! ## Placeholders -/

/-- A name that may stand in a placeholder. -/
def HasNoBraces (name : String) : Prop :=
  '\x7b' ∉ name.toList ∧ '\x7d' ∉ name.toList

instance (name : String) : Decidable (HasNoBraces name) :=
  inferInstanceAs (Decidable (_ ∧ _))

/-- How often the placeholder of a name stands in a text. -/
def placeholderCount (name : String) : List Char → Nat
  | [] => 0
  | c :: cs =>
    (if (placeholder name).isPrefixOf (c :: cs) then 1 else 0) + placeholderCount name cs

/-- No placeholder goes over from the first text to the second: the first ends in a closing brace,
or the second starts with an opening one, or one of them is empty. -/
def Parted (left right : List Char) : Prop :=
  (∀ c ∈ left.getLast?, c = '\x7d') ∨ ∀ c ∈ right.head?, c = '\x7b'

section Placeholders

variable {name other : String} {cs left right : List Char} {c : Char}

theorem length_placeholder (name : String) :
    (placeholder name).length = name.toList.length + 2 := by
  simp [placeholder]

theorem Parted.tail (h : Parted (c :: left) right) : Parted left right := by
  rcases h with hleft | hright
  · refine .inl fun d hd => hleft d ?_
    cases left with
    | nil => cases hd
    | cons e left => rwa [List.getLast?_cons_cons]
  · exact .inr hright

theorem parted_placeholder_left (name : String) (right : List Char) :
    Parted (placeholder name) right := by
  refine .inl fun c hc => ?_
  rw [placeholder, List.getLast?_append] at hc
  exact (Option.some.inj hc).symm

theorem parted_placeholder_right (left : List Char) (name : String) (right : List Char) :
    Parted left (placeholder name ++ right) :=
  .inr fun _ hc => (Option.some.inj hc).symm

/-- Two placeholders that stand at the same place are of one name. -/
theorem name_eq_of_placeholders (hname : HasNoBraces name) (hother : HasNoBraces other)
    (h : placeholder name <+: cs) (h' : placeholder other <+: cs) : name = other := by
  obtain ⟨after, rfl⟩ := h
  obtain ⟨after', heq⟩ := h'
  have htail : other.toList ++ '\x7d' :: after' = name.toList ++ '\x7d' :: after := by
    simpa [placeholder] using heq
  have hfront {text : String} (htext : HasNoBraces text) (rest : List Char) :
      (text.toList ++ '\x7d' :: rest).takeWhile (· != '\x7d') = text.toList := by
    rw [List.takeWhile_append_of_pos (by simpa using fun c hc => ne_of_mem_of_not_mem hc htext.2)]
    simp
  rw [← String.toList_inj, ← hfront hname after, ← htail, hfront hother]

theorem opening_notMem_tail (h : HasNoBraces name) : '\x7b' ∉ (placeholder name).tail := by
  simpa [placeholder] using h.1

theorem closing_notMem_dropLast (h : HasNoBraces name) : '\x7d' ∉ (placeholder name).dropLast := by
  rw [placeholder, List.dropLast_concat, List.mem_cons]
  simpa using h.2

/-- No placeholder goes over a cut. -/
theorem placeholder_prefix_append (hname : HasNoBraces name) (hleft : left ≠ [])
    (h : Parted left right) :
    placeholder name <+: left ++ right ↔ placeholder name <+: left := by
  constructor
  · intro hstands
    rcases List.prefix_or_prefix_of_prefix hstands (List.prefix_append left right) with
      hinside | ⟨more, hmore⟩
    · exact hinside
    · cases more with
      | nil =>
        rw [List.append_nil] at hmore
        exact hmore ▸ List.prefix_refl _
      | cons d more =>
        rcases h with hlast | hhead
        · -- a closing brace stands before the end of the placeholder
          have hclosing := hlast _ (List.getLast?_eq_some_getLast hleft)
          have hmem : '\x7d' ∈ (placeholder name).dropLast := by
            rw [← hmore, List.dropLast_append_of_ne_nil (List.cons_ne_nil d more)]
            exact List.mem_append_left _ (hclosing ▸ List.getLast_mem hleft)
          exact absurd hmem (closing_notMem_dropLast hname)
        · -- an opening brace stands after its start
          obtain ⟨c, left, rfl⟩ := List.exists_cons_of_ne_nil hleft
          rw [← hmore, List.prefix_append_right_inj] at hstands
          obtain ⟨after, rfl⟩ := hstands
          obtain rfl := hhead d rfl
          have hmem : '\x7b' ∈ (placeholder name).tail := by
            rw [← hmore]
            exact List.mem_append_right _ List.mem_cons_self
          exact absurd hmem (opening_notMem_tail hname)
  · intro hstands
    exact hstands.trans (List.prefix_append left right)

theorem placeholder_isPrefixOf_append (hname : HasNoBraces name) (hleft : left ≠ [])
    (h : Parted left right) :
    (placeholder name).isPrefixOf (left ++ right) = (placeholder name).isPrefixOf left := by
  rw [Bool.eq_iff_iff, List.isPrefixOf_iff_prefix, List.isPrefixOf_iff_prefix]
  exact placeholder_prefix_append hname hleft h

/-! ## Counting placeholders -/

theorem placeholderCount_append (hname : HasNoBraces name) (h : Parted left right) :
    placeholderCount name (left ++ right) =
      placeholderCount name left + placeholderCount name right := by
  induction left with
  | nil => exact (Nat.zero_add _).symm
  | cons c left ih =>
    rw [List.cons_append, placeholderCount, placeholderCount, ih h.tail, ← List.cons_append,
      placeholder_isPrefixOf_append hname (List.cons_ne_nil c left) h, Nat.add_assoc]

theorem add_le_placeholderCount_append (name : String) (left right : List Char) :
    placeholderCount name left + placeholderCount name right ≤
      placeholderCount name (left ++ right) := by
  induction left with
  | nil => exact Nat.le_of_eq (Nat.zero_add _)
  | cons c left ih =>
    rw [List.cons_append, placeholderCount, placeholderCount]
    have hle : (if (placeholder name).isPrefixOf (c :: left) then 1 else 0) ≤
        if (placeholder name).isPrefixOf (c :: (left ++ right)) then 1 else 0 := by
      by_cases hstands : (placeholder name).isPrefixOf (c :: left) = true
      · have hmore : (placeholder name).isPrefixOf (c :: (left ++ right)) = true := by
          rw [List.isPrefixOf_iff_prefix] at hstands ⊢
          exact hstands.trans (List.prefix_append (c :: left) right)
        rw [if_pos hstands, if_pos hmore]
      · rw [if_neg hstands]
        exact Nat.zero_le _
    omega

/-- Text without opening braces has no placeholders. -/
theorem not_isPrefixOf_of_ne (name : String) (hc : c ≠ '\x7b') (cs : List Char) :
    (placeholder name).isPrefixOf (c :: cs) = false := by
  rw [placeholder, List.cons_append, List.isPrefixOf_cons_cons, beq_false_of_ne (Ne.symm hc),
    Bool.false_and]

theorem placeholderCount_of_notMem (name : String) (h : '\x7b' ∉ cs) :
    placeholderCount name cs = 0 := by
  induction cs with
  | nil => rfl
  | cons c cs ih =>
    obtain ⟨hc, hcs⟩ := not_or.mp (List.mem_cons.not.mp h)
    rw [placeholderCount, not_isPrefixOf_of_ne name (Ne.symm hc), ih hcs]
    rfl

theorem placeholderCount_placeholder (hname : HasNoBraces name) (hother : HasNoBraces other) :
    placeholderCount name (placeholder other) = if name = other then 1 else 0 := by
  have htail := placeholderCount_of_notMem name (opening_notMem_tail hother)
  rw [placeholder, List.cons_append, List.tail_cons] at htail
  rw [placeholder, List.cons_append, placeholderCount, htail, Nat.add_zero]
  congr 1
  rw [eq_iff_iff, List.isPrefixOf_iff_prefix]
  constructor
  · intro hstands
    exact name_eq_of_placeholders hname hother hstands (List.prefix_refl _)
  · rintro rfl
    exact List.prefix_refl _

/-- A text with a placeholder is cut at the first one. -/
theorem exists_cut (h : placeholderCount name cs ≠ 0) :
    ∃ front after, cs = front ++ (placeholder name ++ after) ∧ placeholderCount name front = 0 := by
  induction cs with
  | nil => exact absurd rfl h
  | cons c cs ih =>
    by_cases hstands : (placeholder name).isPrefixOf (c :: cs) = true
    · obtain ⟨after, hafter⟩ := List.isPrefixOf_iff_prefix.mp hstands
      exact ⟨[], after, hafter.symm, rfl⟩
    · rw [placeholderCount, if_neg hstands, Nat.zero_add] at h
      obtain ⟨front, after, rfl, hfront⟩ := ih h
      refine ⟨c :: front, after, rfl, ?_⟩
      rw [placeholderCount, hfront, if_neg]
      intro habs
      apply hstands
      rw [List.isPrefixOf_iff_prefix] at habs ⊢
      exact habs.trans (List.prefix_append (c :: front) _)

/-- **Induction over the placeholders of a name**: a text has none, or a text without one stands in
front of the first. -/
theorem cut_induction {motive : List Char → Prop} (name : String)
    (none : ∀ cs, placeholderCount name cs = 0 → motive cs)
    (cut : ∀ front after, placeholderCount name front = 0 → motive after →
      motive (front ++ (placeholder name ++ after))) (cs : List Char) : motive cs := by
  by_cases h : placeholderCount name cs = 0
  · exact none cs h
  · obtain ⟨front, after, heq, hfront⟩ := exists_cut h
    have hshorter : after.length < cs.length := by
      rw [heq, List.length_append, List.length_append, length_placeholder]
      omega
    rw [heq]
    exact cut front after hfront (cut_induction name none cut after)
termination_by cs.length

end Placeholders

/-! ## All props at once -/

namespace PropValues

/-- Names that differ from each other and have no braces, as the names of attributes do. -/
structure WellNamed (props : PropValues) : Prop where
  distinct : (props.map Prod.fst).Nodup
  hasNoBraces : ∀ prop ∈ props, HasNoBraces prop.1

/-- The prop whose placeholder stands at the front of a text. -/
def front? (props : PropValues) (cs : List Char) : Option (String × String) :=
  props.find? fun prop => (placeholder prop.1).isPrefixOf cs

/-- Fills in all props at once, from left to right.  `skip` characters of a placeholder are left to
pass. -/
def fillFrom (props : PropValues) (skip : Nat) : List Char → List Char
  | [] => []
  | c :: cs =>
    if 0 < skip then props.fillFrom (skip - 1) cs
    else (props.front? (c :: cs)).elim (c :: props.fillFrom 0 cs) fun prop =>
      prop.2.toList ++ props.fillFrom (prop.1.toList.length + 1) cs

/-- A text with all props filled in at once. -/
def fill (props : PropValues) (text : String) : String :=
  String.ofList (props.fillFrom 0 text.toList)

section Filling

variable {props others : PropValues} {prop : String × String} {name : String} {skip : Nat}
  {cs left right : List Char} {c : Char}

theorem WellNamed.sublist (h : props.WellNamed) (hsub : others.Sublist props) : others.WellNamed :=
  ⟨h.distinct.sublist (hsub.map Prod.fst), fun p hp => h.hasNoBraces p (hsub.subset hp)⟩

theorem WellNamed.tail (h : WellNamed (prop :: props)) : props.WellNamed :=
  h.sublist (List.sublist_cons_self prop props)

theorem WellNamed.singleton (h : WellNamed (prop :: props)) : WellNamed [prop] :=
  h.sublist (List.singleton_sublist.mpr List.mem_cons_self)

theorem WellNamed.head (h : WellNamed (prop :: props)) : HasNoBraces prop.1 :=
  h.hasNoBraces prop List.mem_cons_self

theorem WellNamed.ne_head (h : WellNamed (prop :: props)) : ∀ p ∈ props, p.1 ≠ prop.1 := by
  intro p hp heq
  apply (List.nodup_cons.mp h.distinct).1
  exact heq ▸ List.mem_map_of_mem hp

theorem WellNamed.perm (h : props.WellNamed) (hperm : props.Perm others) : others.WellNamed :=
  ⟨(hperm.map Prod.fst).nodup_iff.mp h.distinct,
    fun p hp => h.hasNoBraces p (hperm.mem_iff.mpr hp)⟩

theorem fillFrom_cons_succ (props : PropValues) (skip : Nat) (c : Char) (cs : List Char) :
    props.fillFrom (skip + 1) (c :: cs) = props.fillFrom skip cs := by
  rw [fillFrom, if_pos (Nat.succ_pos skip), Nat.add_sub_cancel]

theorem fillFrom_cons_of_none (h : props.front? (c :: cs) = none) :
    props.fillFrom 0 (c :: cs) = c :: props.fillFrom 0 cs := by
  rw [fillFrom, if_neg (Nat.lt_irrefl 0), h, Option.elim_none]

theorem fillFrom_cons_of_some (h : props.front? (c :: cs) = some prop) :
    props.fillFrom 0 (c :: cs) =
      prop.2.toList ++ props.fillFrom (prop.1.toList.length + 1) cs := by
  rw [fillFrom, if_neg (Nat.lt_irrefl 0), h, Option.elim_some]

/-- At most one placeholder stands at a place. -/
theorem front?_eq_some_iff (h : props.WellNamed) :
    props.front? cs = some prop ↔ prop ∈ props ∧ placeholder prop.1 <+: cs := by
  have hstands {p : String × String} (hp : props.front? cs = some p) :
      p ∈ props ∧ placeholder p.1 <+: cs := by
    unfold front? at hp
    have hfound := List.find?_some hp
    exact ⟨List.mem_of_find?_eq_some hp, List.isPrefixOf_iff_prefix.mp hfound⟩
  constructor
  · exact hstands
  · rintro ⟨hmem, hprop⟩
    have hsome : (props.front? cs).isSome = true :=
      List.find?_isSome.mpr ⟨prop, hmem, List.isPrefixOf_iff_prefix.mpr hprop⟩
    obtain ⟨p, hp⟩ := Option.isSome_iff_exists.mp hsome
    obtain ⟨hmem', hprop'⟩ := hstands hp
    have hname := name_eq_of_placeholders (h.hasNoBraces p hmem') (h.hasNoBraces prop hmem) hprop'
      hprop
    rw [hp, List.inj_on_of_nodup_map h.distinct hmem' hmem hname]

theorem front?_perm (h : props.WellNamed) (hperm : props.Perm others) (cs : List Char) :
    props.front? cs = others.front? cs := by
  apply Option.ext
  intro prop
  rw [front?_eq_some_iff h, front?_eq_some_iff (h.perm hperm), hperm.mem_iff]

/-- **The order of the props does not matter** when all are filled in at once. -/
theorem fillFrom_perm (h : props.WellNamed) (hperm : props.Perm others) (skip : Nat)
    (cs : List Char) : props.fillFrom skip cs = others.fillFrom skip cs := by
  induction cs generalizing skip with
  | nil => rfl
  | cons c cs ih => simp only [fillFrom, front?_perm h hperm, ih]

theorem front?_append (h : props.WellNamed) (hleft : left ≠ []) (hparted : Parted left right) :
    props.front? (left ++ right) = props.front? left := by
  apply Option.ext
  intro prop
  rw [front?_eq_some_iff h, front?_eq_some_iff h]
  exact and_congr_right fun hprop =>
    placeholder_prefix_append (h.hasNoBraces prop hprop) hleft hparted

/-- A placeholder that stands at the front of a text takes its characters from it. -/
theorem length_le_of_front? (h : props.WellNamed) (hfront : props.front? (c :: cs) = some prop) :
    prop.1.toList.length + 1 ≤ cs.length := by
  have hle := ((front?_eq_some_iff h).mp hfront).2.length_le
  rw [length_placeholder, List.length_cons] at hle
  omega

/-- **A text is filled part by part** where no placeholder goes over from one part to the next. -/
theorem fillFrom_append (h : props.WellNamed) (hparted : Parted left right)
    (hskip : skip ≤ left.length) :
    props.fillFrom skip (left ++ right) = props.fillFrom skip left ++ props.fillFrom 0 right := by
  induction left generalizing skip with
  | nil =>
    obtain rfl := Nat.le_zero.mp hskip
    rfl
  | cons c left ih =>
    cases skip with
    | succ skip =>
      rw [List.cons_append, fillFrom_cons_succ, fillFrom_cons_succ]
      exact ih hparted.tail (Nat.le_of_succ_le_succ hskip)
    | zero =>
      have hfront := front?_append h (List.cons_ne_nil c left) hparted
      rw [List.cons_append] at hfront ⊢
      cases hstands : props.front? (c :: left) with
      | none =>
        rw [fillFrom_cons_of_none (hfront.trans hstands), fillFrom_cons_of_none hstands,
          ih hparted.tail (Nat.zero_le _), List.cons_append]
      | some prop =>
        rw [fillFrom_cons_of_some (hfront.trans hstands), fillFrom_cons_of_some hstands,
          ih hparted.tail (length_le_of_front? h hstands), List.append_assoc]

theorem front?_of_ne (props : PropValues) (hc : c ≠ '\x7b') (cs : List Char) :
    props.front? (c :: cs) = none := by
  rw [front?, List.find?_eq_none]
  intro prop _
  rw [not_isPrefixOf_of_ne prop.1 hc]
  exact Bool.false_ne_true

theorem fillFrom_of_notMem (props : PropValues) (h : '\x7b' ∉ cs) : props.fillFrom 0 cs = cs := by
  induction cs with
  | nil => rfl
  | cons c cs ih =>
    obtain ⟨hc, hcs⟩ := not_or.mp (List.mem_cons.not.mp h)
    rw [fillFrom_cons_of_none (props.front?_of_ne (Ne.symm hc) cs), ih hcs]

/-- The placeholder of a name without a text is left. -/
theorem fillFrom_placeholder_of_ne (h : props.WellNamed) (hname : HasNoBraces name)
    (hne : ∀ prop ∈ props, prop.1 ≠ name) :
    props.fillFrom 0 (placeholder name) = placeholder name := by
  have hfront : props.front? (placeholder name) = none := by
    rw [Option.eq_none_iff_forall_ne_some]
    intro prop hprop
    obtain ⟨hmem, hstands⟩ := (front?_eq_some_iff h).mp hprop
    apply hne prop hmem
    exact name_eq_of_placeholders (h.hasNoBraces prop hmem) hname hstands (List.prefix_refl _)
  exact (fillFrom_cons_of_none hfront).trans
    (congrArg _ (fillFrom_of_notMem props (opening_notMem_tail hname)))

theorem fillFrom_skip_all (props : PropValues) (cs : List Char) :
    props.fillFrom cs.length cs = [] := by
  induction cs with
  | nil => rfl
  | cons c cs ih => rw [List.length_cons, fillFrom_cons_succ, ih]

/-- The placeholder of a prop is replaced by the text of the prop. -/
theorem fillFrom_placeholder (h : props.WellNamed) (hprop : prop ∈ props) :
    props.fillFrom 0 (placeholder prop.1) = prop.2.toList := by
  have hfront : props.front? (placeholder prop.1) = some prop :=
    (front?_eq_some_iff h).mpr ⟨hprop, List.prefix_refl _⟩
  have hskip := props.fillFrom_skip_all (prop.1.toList ++ ['\x7d'])
  rw [List.length_append, List.length_singleton] at hskip
  calc props.fillFrom 0 (placeholder prop.1)
      = prop.2.toList ++
          props.fillFrom (prop.1.toList.length + 1) (prop.1.toList ++ ['\x7d']) :=
        fillFrom_cons_of_some hfront
    _ = prop.2.toList := by rw [hskip, List.append_nil]

end Filling

/-! ## One more prop -/

section OneMore

variable {props : PropValues} {prop : String × String} {cs front after : List Char}

/-- A prop whose placeholder is not there changes nothing. -/
theorem fillFrom_cons_of_count (h : placeholderCount prop.1 cs = 0) (skip : Nat) :
    fillFrom (prop :: props) skip cs = props.fillFrom skip cs := by
  induction cs generalizing skip with
  | nil => rfl
  | cons c cs ih =>
    obtain ⟨hstands, hcs⟩ := Nat.add_eq_zero_iff.mp h
    have hfront : front? (prop :: props) (c :: cs) = props.front? (c :: cs) := by
      apply List.find?_cons_of_neg
      intro habs
      rw [if_pos habs] at hstands
      cases hstands
    simp only [fillFrom, hfront, ih hcs]

theorem fillFrom_nil (cs : List Char) : fillFrom [] 0 cs = cs := by
  induction cs with
  | nil => rfl
  | cons c cs ih => rw [fillFrom_cons_of_none rfl, ih]

/-- Filling in at a placeholder of the prop: its text stands between the filled parts. -/
theorem fillFrom_cons_cut (h : WellNamed (prop :: props)) (front after : List Char) :
    fillFrom (prop :: props) 0 (front ++ (placeholder prop.1 ++ after)) =
      fillFrom (prop :: props) 0 front ++
        (prop.2.toList ++ fillFrom (prop :: props) 0 after) := by
  rw [fillFrom_append h (parted_placeholder_right front prop.1 after) (Nat.zero_le _),
    fillFrom_append h (parted_placeholder_left prop.1 after) (Nat.zero_le _),
    fillFrom_placeholder h List.mem_cons_self]

/-- The other props leave the placeholder where it is. -/
theorem fillFrom_cut (h : WellNamed (prop :: props)) (front after : List Char) :
    props.fillFrom 0 (front ++ (placeholder prop.1 ++ after)) =
      props.fillFrom 0 front ++ (placeholder prop.1 ++ props.fillFrom 0 after) := by
  rw [fillFrom_append h.tail (parted_placeholder_right front prop.1 after) (Nat.zero_le _),
    fillFrom_append h.tail (parted_placeholder_left prop.1 after) (Nat.zero_le _),
    fillFrom_placeholder_of_ne h.tail h.head h.ne_head]

theorem placeholderCount_cut {name other : String} (hname : HasNoBraces name)
    (hother : HasNoBraces other) (front after : List Char) :
    placeholderCount name (front ++ (placeholder other ++ after)) =
      placeholderCount name front + ((if name = other then 1 else 0) +
        placeholderCount name after) := by
  rw [placeholderCount_append hname (parted_placeholder_right front other after),
    placeholderCount_append hname (parted_placeholder_left other after),
    placeholderCount_placeholder hname hother]

/-- **How long a filled text is.**  Each placeholder of the prop is taken out, and the text of the
prop is put in. -/
theorem length_fillFrom (h : WellNamed (prop :: props)) (cs : List Char) :
    (fillFrom (prop :: props) 0 cs).length +
        placeholderCount prop.1 cs * (placeholder prop.1).length =
      (props.fillFrom 0 cs).length + placeholderCount prop.1 cs * prop.2.toList.length := by
  induction cs using cut_induction prop.1 with
  | none cs hcs => rw [fillFrom_cons_of_count hcs, hcs, Nat.zero_mul, Nat.zero_mul]
  | cut front after hfront ih =>
    rw [fillFrom_cons_cut h, fillFrom_cons_of_count hfront, fillFrom_cut h,
      placeholderCount_cut h.head h.head, hfront, if_pos rfl]
    simp only [List.length_append, Nat.add_mul, Nat.zero_mul, Nat.one_mul]
    omega

/-- A prop that stands for its own placeholder changes nothing. -/
theorem fillFrom_cons_of_self (h : WellNamed (prop :: props))
    (hself : prop.2.toList = placeholder prop.1) (cs : List Char) :
    fillFrom (prop :: props) 0 cs = props.fillFrom 0 cs := by
  induction cs using cut_induction prop.1 with
  | none cs hcs => exact fillFrom_cons_of_count hcs 0
  | cut front after hfront ih =>
    rw [fillFrom_cons_cut h, fillFrom_cons_of_count hfront, fillFrom_cut h, ih, hself]

/-- One prop changes every text with its placeholder, unless it stands for the placeholder. -/
theorem fillFrom_singleton_eq_self_iff (h : WellNamed [prop]) :
    fillFrom [prop] 0 cs = cs ↔
      prop.2.toList = placeholder prop.1 ∨ placeholderCount prop.1 cs = 0 := by
  constructor
  · intro hsame
    by_cases hcount : placeholderCount prop.1 cs = 0
    · exact .inr hcount
    · refine .inl ?_
      have hlength := length_fillFrom h cs
      rw [hsame, fillFrom_nil] at hlength
      have heq : prop.2.toList.length = (placeholder prop.1).length :=
        (Nat.eq_of_mul_eq_mul_left (Nat.pos_of_ne_zero hcount) (Nat.add_left_cancel hlength)).symm
      -- the first placeholder and the text in its place are of one length
      obtain ⟨front, after, rfl, hfront⟩ := exists_cut hcount
      rw [fillFrom_cons_cut h, fillFrom_cons_of_count hfront, fillFrom_nil] at hsame
      exact (List.append_inj (List.append_cancel_left hsame) heq).1
  · rintro (hself | hcount)
    · rw [fillFrom_cons_of_self h hself, fillFrom_nil]
    · rw [fillFrom_cons_of_count hcount, fillFrom_nil]

/-- One more prop takes away no placeholder of another name. -/
theorem placeholderCount_le_fillFrom_cons {name : String} (h : WellNamed (prop :: props))
    (hname : HasNoBraces name) (hne : prop.1 ≠ name) (cs : List Char) :
    placeholderCount name (props.fillFrom 0 cs) ≤
      placeholderCount name (fillFrom (prop :: props) 0 cs) := by
  induction cs using cut_induction prop.1 with
  | none cs hcs => rw [fillFrom_cons_of_count hcs]
  | cut front after hfront ih =>
    rw [fillFrom_cons_cut h, fillFrom_cons_of_count hfront, fillFrom_cut h,
      placeholderCount_cut hname h.head, if_neg (Ne.symm hne), Nat.zero_add]
    -- the text of the prop stands between the parts and takes nothing from them
    calc placeholderCount name (props.fillFrom 0 front) +
          placeholderCount name (props.fillFrom 0 after)
        ≤ placeholderCount name (props.fillFrom 0 front) +
            (placeholderCount name prop.2.toList +
              placeholderCount name (fillFrom (prop :: props) 0 after)) := by omega
      _ ≤ placeholderCount name (props.fillFrom 0 front) +
            placeholderCount name (prop.2.toList ++ fillFrom (prop :: props) 0 after) :=
          Nat.add_le_add_left (add_le_placeholderCount_append name _ _) _
      _ ≤ _ := add_le_placeholderCount_append name _ _

/-- **The more props are filled in, the more placeholders of another name there are.** -/
theorem placeholderCount_fillFrom_mono {name : String} {more : PropValues}
    (h : WellNamed (more ++ props)) (hname : HasNoBraces name)
    (hne : ∀ p ∈ more, p.1 ≠ name) (cs : List Char) :
    placeholderCount name (props.fillFrom 0 cs) ≤
      placeholderCount name (fillFrom (more ++ props) 0 cs) := by
  induction more with
  | nil => exact Nat.le_refl _
  | cons p more ih =>
    obtain ⟨hp, hmore⟩ := List.forall_mem_cons.mp hne
    exact Nat.le_trans (ih h.tail hmore) (placeholderCount_le_fillFrom_cons h hname hp cs)

theorem placeholderCount_le_fillFrom (h : WellNamed (prop :: props)) (cs : List Char) :
    placeholderCount prop.1 cs ≤ placeholderCount prop.1 (props.fillFrom 0 cs) := by
  have hnamed : WellNamed (props ++ []) := by
    rw [List.append_nil]
    exact h.tail
  have hle := placeholderCount_fillFrom_mono hnamed h.head h.ne_head cs
  rwa [fillFrom_nil, List.append_nil] at hle

/-- If the prop is as long as its placeholder, filled parts may be compared one by one. -/
theorem placeholderCount_eq_of_length (h : WellNamed (prop :: props))
    (hself : prop.2.toList ≠ placeholder prop.1)
    (hlength : prop.2.toList.length = (placeholder prop.1).length)
    (hsame : fillFrom [prop] 0 (props.fillFrom 0 cs) = fillFrom (prop :: props) 0 cs) :
    placeholderCount prop.1 (props.fillFrom 0 cs) = placeholderCount prop.1 cs := by
  have hsingle := h.singleton
  induction cs using cut_induction prop.1 with
  | none cs hcs =>
    rw [fillFrom_cons_of_count hcs] at hsame
    rw [hcs]
    exact ((fillFrom_singleton_eq_self_iff hsingle).mp hsame).resolve_left hself
  | cut front after hfront ih =>
    rw [fillFrom_cut h, fillFrom_cons_cut h, fillFrom_cons_of_count hfront,
      fillFrom_cons_cut hsingle] at hsame
    have hparts := length_fillFrom hsingle (props.fillFrom 0 front)
    rw [hlength, fillFrom_nil] at hparts
    obtain ⟨hleft, hright⟩ := List.append_inj hsame (Nat.add_right_cancel hparts)
    have hfilled := ((fillFrom_singleton_eq_self_iff hsingle).mp hleft).resolve_left hself
    have hafter := ih (List.append_cancel_left hright)
    rw [fillFrom_cut h, placeholderCount_cut h.head h.head, placeholderCount_cut h.head h.head,
      hfilled, hfront, hafter]

/-- **One more prop.**  To put it into a text where the others were filled in is to fill it in with
them exactly if the others brought no new placeholder of it, or it stands for its placeholder. -/
theorem fillFrom_singleton_eq_iff (h : WellNamed (prop :: props)) (cs : List Char) :
    fillFrom [prop] 0 (props.fillFrom 0 cs) = fillFrom (prop :: props) 0 cs ↔
      prop.2.toList = placeholder prop.1 ∨
        placeholderCount prop.1 (props.fillFrom 0 cs) = placeholderCount prop.1 cs := by
  constructor
  · intro hsame
    by_cases hself : prop.2.toList = placeholder prop.1
    · exact .inl hself
    · refine .inr ?_
      -- every new placeholder changes the length of the text by the same number
      obtain ⟨new, hnew⟩ := Nat.exists_eq_add_of_le (placeholderCount_le_fillFrom h cs)
      have hlength : new * (placeholder prop.1).length = new * prop.2.toList.length := by
        have hput := length_fillFrom h.singleton (props.fillFrom 0 cs)
        have hfilled := length_fillFrom h cs
        rw [hsame, fillFrom_nil, hnew, Nat.add_mul, Nat.add_mul] at hput
        omega
      rcases Nat.eq_zero_or_pos new with rfl | hpos
      · exact hnew
      · have heq := (Nat.eq_of_mul_eq_mul_left hpos hlength).symm
        exact placeholderCount_eq_of_length h hself heq hsame
  · rintro (hself | hcount)
    · rw [fillFrom_cons_of_self h hself, fillFrom_cons_of_self h.singleton hself, fillFrom_nil]
    · induction cs using cut_induction prop.1 with
      | none cs hcs =>
        rw [fillFrom_cons_of_count hcs]
        exact (fillFrom_singleton_eq_self_iff h.singleton).mpr (.inr (hcount.trans hcs))
      | cut front after hfront ih =>
        have hle := placeholderCount_le_fillFrom h after
        rw [fillFrom_cut h, placeholderCount_cut h.head h.head, placeholderCount_cut h.head h.head,
          hfront] at hcount
        have hzero : placeholderCount prop.1 (props.fillFrom 0 front) = 0 := by omega
        rw [fillFrom_cut h, fillFrom_cons_cut h, fillFrom_cons_cut h.singleton,
          fillFrom_cons_of_count hzero, fillFrom_nil, fillFrom_cons_of_count hfront, ih (by omega)]

/-- To replace one prop is to fill it in alone. -/
theorem replaceAll_eq_fillFrom (prop : String × String) (skip : Nat) (cs : List Char) :
    replaceAll (placeholder prop.1) prop.2.toList skip cs = fillFrom [prop] skip cs := by
  induction cs generalizing skip with
  | nil => rfl
  | cons c cs ih =>
    cases skip with
    | succ skip => rw [replaceAll, fillFrom_cons_succ, ih]
    | zero =>
      rw [replaceAll, ih, ih, length_placeholder]
      by_cases hstands : (placeholder prop.1).isPrefixOf (c :: cs) = true
      · have hfront : front? [prop] (c :: cs) = some prop := by simp [front?, hstands]
        rw [if_pos hstands, fillFrom_cons_of_some hfront]
        rfl
      · have hfront : front? [prop] (c :: cs) = none := by simp [front?, hstands]
        rw [if_neg hstands, fillFrom_cons_of_none hfront]

end OneMore

end PropValues

end UiLang
