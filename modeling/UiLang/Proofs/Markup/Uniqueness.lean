import Mathlib.Data.List.Nodup
import UiLang.Proofs.Markup.Requests
import UiLang.Proofs.Scan.Words

/-!
# Which ids are unique

Ids are made in two ways that share one space of texts: from a stem and the next number, or from a
base and the number of its uses.  Each id has a label that says how it was made, and labels never
repeat.  Two labels have the same text only if one is a base and the other a repeated use: a field
bound to `a.2` asks for the base `input-a-2`, which is also the second id of a field bound to `a`.
Stems, texts with paths and derived ids never meet anything else.

## Main definitions

* `IdLabel`, `IdLabel.text`: how an id was made, and the id
* `IdSupply.labels`: the labels of all ids that some requests are given
* `Dashed`: words with hyphens between them
* `IdRequest.IsFormed`: the requests that markup makes

## Main results

* `nodup_labels`, `named_mem_labels`: labels do not repeat, and which of them are handed out
* `IdLabel.text_eq_iff`: when two labels have the same text
* `Program.requests_formed`: the requests of markup are formed
* `nodup_ids_iff`: when the ids of the markup of a source are pairwise distinct
-/

namespace UiLang

/-! ## Labels -/

/-- How an id was made: from a stem and a number, with the ending of a derived id, or from a base
at one of its uses. -/
inductive IdLabel where
  | numbered (stem : String) (number : Nat) (ending : String)
  | named (base : String) (use : Nat)
  deriving DecidableEq

namespace IdLabel

/-- The id of a label. -/
def text : IdLabel → String
  | .numbered stem number ending => stem ++ "-" ++ toString number ++ ending
  | .named base use => if use = 1 then base else base ++ "-" ++ toString use

/-- A label that a supply has not come to yet. -/
def IsAbove (ids : IdSupply) : IdLabel → Prop
  | .numbered _ number _ => ids.drawn < number
  | .named base use => ids.usesOf base < use

end IdLabel

/-- The labels of the ids that a request is given. -/
def IdRequest.labels (ids : IdSupply) : IdRequest → List IdLabel
  | .numbered stem endings => ("" :: endings).map (.numbered stem (ids.drawn + 1))
  | .named base => [.named base (ids.usesOf base + 1)]

/-- The labels of the ids that some requests are given. -/
def IdSupply.labels (ids : IdSupply) : List IdRequest → List IdLabel
  | [] => []
  | request :: requests => request.labels ids ++ (request.draw ids).2.labels requests

theorem IdRequest.map_text_labels (ids : IdSupply) (request : IdRequest) :
    (request.labels ids).map IdLabel.text = request.family (request.draw ids).1 := by
  cases request with
  | numbered stem endings =>
    rw [labels, List.map_map, List.map_cons, family]
    congr 1
    exact String.append_empty
  | named base =>
    rw [labels, List.map_singleton]
    exact congrArg (fun text => [text]) (by simp [IdLabel.text, draw, IdSupply.named])

theorem map_text_labels (ids : IdSupply) (requests : List IdRequest) :
    (ids.labels requests).map IdLabel.text = ids.given requests := by
  induction requests generalizing ids with
  | nil => rfl
  | cons request requests ih =>
    rw [IdSupply.labels, IdSupply.given, List.map_append, request.map_text_labels, ih]

theorem usesOf_named (ids : IdSupply) (base other : String) :
    (IdSupply.named base ids).2.usesOf other =
      if base = other then ids.usesOf base + 1 else ids.usesOf other := by
  unfold IdSupply.named
  rw [IdSupply.usesOf, OrderedMap.get?_insert]
  split <;> rfl

theorem IdLabel.IsAbove.of_draw {label : IdLabel} {ids : IdSupply} {request : IdRequest}
    (h : label.IsAbove (request.draw ids).2) : label.IsAbove ids := by
  cases request with
  | numbered stem endings =>
    cases label with
    | numbered _ number _ => exact Nat.lt_of_succ_lt h
    | named _ use => exact h
  | named base =>
    cases label with
    | numbered _ number _ => exact h
    | named other use =>
      change (IdSupply.named base ids).2.usesOf other < use at h
      rw [usesOf_named] at h
      change ids.usesOf other < use
      by_cases hbase : base = other
      · subst hbase
        rw [if_pos rfl] at h
        omega
      · rwa [if_neg hbase] at h

/-- A label is above the supply before its request and no more after it. -/
theorem IdRequest.isAbove_of_mem_labels {request : IdRequest} {ids : IdSupply} {label : IdLabel}
    (h : label ∈ request.labels ids) :
    label.IsAbove ids ∧ ¬label.IsAbove (request.draw ids).2 := by
  cases request with
  | numbered stem endings =>
    obtain ⟨ending, -, rfl⟩ := List.mem_map.mp h
    exact ⟨Nat.lt_succ_self _, Nat.lt_irrefl _⟩
  | named base =>
    obtain rfl := List.mem_singleton.mp h
    refine ⟨Nat.lt_succ_self _, ?_⟩
    change ¬(IdSupply.named base ids).2.usesOf base < _
    rw [usesOf_named, if_pos rfl]
    exact Nat.lt_irrefl _

theorem isAbove_of_mem_labels {requests : List IdRequest} {ids : IdSupply} {label : IdLabel}
    (h : label ∈ ids.labels requests) : label.IsAbove ids := by
  induction requests generalizing ids with
  | nil => cases h
  | cons request requests ih =>
    rcases List.mem_append.mp h with h | h
    · exact (IdRequest.isAbove_of_mem_labels h).1
    · exact (ih h).of_draw

/-- The ids that are derived from one id have different endings. -/
def IdRequest.HasDistinctEndings : IdRequest → Prop
  | .numbered _ endings => ("" :: endings).Nodup
  | .named _ => True

theorem IdRequest.nodup_labels {request : IdRequest} (h : request.HasDistinctEndings)
    (ids : IdSupply) : (request.labels ids).Nodup := by
  cases request with
  | numbered stem endings =>
    refine List.Nodup.map (fun ending other heq => ?_) h
    exact (IdLabel.numbered.inj heq).2.2
  | named base => exact List.nodup_singleton _

/-- **Labels do not repeat.** -/
theorem nodup_labels {requests : List IdRequest}
    (h : ∀ request ∈ requests, request.HasDistinctEndings) (ids : IdSupply) :
    (ids.labels requests).Nodup := by
  induction requests generalizing ids with
  | nil => exact List.nodup_nil
  | cons request requests ih =>
    obtain ⟨hrequest, hrequests⟩ := List.forall_mem_cons.mp h
    rw [IdSupply.labels, List.nodup_append]
    refine ⟨request.nodup_labels hrequest ids, ih hrequests _, ?_⟩
    -- later labels are above the supply after the request, its own are not
    rintro label hlabel _ hlater rfl
    exact (IdRequest.isAbove_of_mem_labels hlabel).2 (isAbove_of_mem_labels hlater)

/-- **The uses of a base are counted**: a supply hands out one label for each request of the base,
with the numbers that follow the uses so far. -/
theorem named_mem_labels {requests : List IdRequest} {ids : IdSupply} {base : String} {use : Nat} :
    .named base use ∈ ids.labels requests ↔
      ids.usesOf base < use ∧ use ≤ ids.usesOf base + requests.count (.named base) := by
  induction requests generalizing ids with
  | nil =>
    rw [List.count_nil]
    refine ⟨fun h => absurd h List.not_mem_nil, fun ⟨hlt, hle⟩ => ?_⟩
    omega
  | cons request requests ih =>
    rw [IdSupply.labels, List.mem_append, ih, List.count_cons]
    cases request with
    | numbered stem endings =>
      -- a numbered request hands out no named label, and the uses stay as they are
      have hown : .named base use ∉ IdRequest.labels ids (.numbered stem endings) := by
        intro h
        obtain ⟨ending, -, hlabel⟩ := List.mem_map.mp h
        cases hlabel
      rw [or_iff_right hown]
      simp [IdRequest.draw, IdSupply.numbered, IdSupply.usesOf]
    | named other =>
      have hdraw : ((IdRequest.named other).draw ids).2 = (IdSupply.named other ids).2 := rfl
      rw [hdraw, usesOf_named, IdRequest.labels, List.mem_singleton]
      by_cases hbase : other = base
      · subst hbase
        simp only [IdLabel.named.injEq, true_and, if_true, beq_self_eq_true]
        omega
      · simp [hbase, Ne.symm hbase]

/-! ## Texts with hyphens -/

section Hyphens

variable {front other rest after : List Char}

/-- A text is split in one way at its first hyphen. -/
theorem eq_of_first_hyphen (hfront : '-' ∉ front) (hother : '-' ∉ other)
    (h : front ++ '-' :: rest = other ++ '-' :: after) : front = other ∧ rest = after := by
  rcases List.append_eq_append_iff.mp h with ⟨gap, rfl, hgap⟩ | ⟨gap, rfl, hgap⟩
  · cases gap with
    | nil => exact ⟨(List.append_nil _).symm, (List.cons.inj hgap).2⟩
    | cons c gap =>
      obtain ⟨rfl, -⟩ := List.cons.inj hgap
      simp at hother
  · cases gap with
    | nil => exact ⟨List.append_nil _, (List.cons.inj hgap).2.symm⟩
    | cons c gap =>
      obtain ⟨rfl, -⟩ := List.cons.inj hgap
      simp at hfront

/-- A text is split in one way at its last hyphen. -/
theorem eq_of_last_hyphen (hrest : '-' ∉ rest) (hafter : '-' ∉ after)
    (h : front ++ '-' :: rest = other ++ '-' :: after) : front = other ∧ rest = after := by
  -- read backwards, the last hyphen is the first
  have hreverse := congrArg List.reverse h
  simp only [List.reverse_append, List.reverse_cons, List.append_assoc, List.singleton_append]
    at hreverse
  obtain ⟨hback, hfront⟩ := eq_of_first_hyphen (by simpa using hrest) (by simpa using hafter) hreverse
  exact ⟨List.reverse_injective hfront, List.reverse_injective hback⟩

end Hyphens

theorem isDigit_of_mem_toString {n : Nat} {c : Char} (h : c ∈ (toString n).toList) :
    c.isDigit = true := by
  rw [Nat.toString_eq_repr, Nat.toList_repr] at h
  exact Nat.isDigit_of_mem_toDigits (by decide) (by decide) h

theorem hyphen_notMem_toString (n : Nat) : '-' ∉ (toString n).toList :=
  fun h => absurd (isDigit_of_mem_toString h) (by decide)

theorem exists_toString_eq_cons (n : Nat) :
    ∃ c rest, (toString n).toList = c :: rest ∧ c.isDigit = true := by
  have hne : (toString n).toList ≠ [] := by
    rw [Nat.toString_eq_repr, Nat.toList_repr]
    exact Nat.toDigits_ne_nil
  obtain ⟨c, rest, h⟩ := List.exists_cons_of_ne_nil hne
  exact ⟨c, rest, h, isDigit_of_mem_toString (n := n) (h ▸ List.mem_cons_self)⟩

theorem toString_inj {n m : Nat} (h : (toString n).toList = (toString m).toList) : n = m := by
  rw [Nat.toString_eq_repr, Nat.toList_repr, Nat.toString_eq_repr, Nat.toList_repr] at h
  have hvalue := congrArg (fun digits => Nat.ofDigitChars 10 digits 0) h
  simpa [Nat.ofDigitChars_toDigits] using hvalue

/-- A number before something that does not start with a digit is split off in one way. -/
theorem eq_of_number_append {n m : Nat} {rest after : List Char} (hrest : Lacks Char.isDigit rest)
    (hafter : Lacks Char.isDigit after)
    (h : (toString n).toList ++ rest = (toString m).toList ++ after) : n = m ∧ rest = after := by
  have hdigits (k : Nat) : ∀ c ∈ (toString k).toList, c.isDigit = true :=
    fun c => isDigit_of_mem_toString
  have htake := congrArg (List.takeWhile Char.isDigit) h
  have hdrop := congrArg (List.dropWhile Char.isDigit) h
  rw [takeWhile_append_of_lacks (hdigits n) hrest, takeWhile_append_of_lacks (hdigits m) hafter]
    at htake
  rw [dropWhile_append_of_lacks (hdigits n) hrest, dropWhile_append_of_lacks (hdigits m) hafter]
    at hdrop
  exact ⟨toString_inj htake, hdrop⟩

/-- A text that starts as identifiers do. -/
def StartsWord (cs : List Char) : Prop :=
  ∃ c rest, cs = c :: rest ∧ isIdentifierStart c = true

theorem StartsWord.append {cs : List Char} (h : StartsWord cs) (rest : List Char) :
    StartsWord (cs ++ rest) := by
  obtain ⟨c, tail, rfl, hc⟩ := h
  exact ⟨c, tail ++ rest, rfl, hc⟩

theorem not_startsWord_number (n : Nat) (rest : List Char) :
    ¬StartsWord ((toString n).toList ++ rest) := by
  rintro ⟨c, tail, htail, hc⟩
  obtain ⟨d, digits, hdigits, hd⟩ := exists_toString_eq_cons n
  rw [hdigits] at htail
  obtain ⟨rfl, -⟩ := List.cons.inj htail
  rw [not_isIdentifierStart_of_isDigit hd] at hc
  cases hc

theorem IsIdentifier.startsWord {name : String} (h : IsIdentifier name) :
    StartsWord name.toList := by
  unfold IsIdentifier at h
  cases hname : name.toList with
  | nil =>
    rw [hname] at h
    cases h
  | cons c cs =>
    rw [hname, isIdentifier_cons] at h
    exact ⟨c, cs, rfl, h.1⟩

/-- Identifiers with hyphens between them. -/
inductive Dashed : List Char → Prop
  | word {name : String} (named : IsIdentifier name) : Dashed name.toList
  | join {front rest : List Char} (front_dashed : Dashed front) (rest_dashed : Dashed rest) :
    Dashed (front ++ '-' :: rest)

theorem Dashed.startsWord {cs : List Char} (h : Dashed cs) : StartsWord cs := by
  induction h with
  | word named => exact named.startsWord
  | join _ _ ih _ => exact ih.append _

/-- After every hyphen a new word starts. -/
theorem Dashed.startsWord_after {cs front rest : List Char} (h : Dashed cs)
    (hcs : cs = front ++ '-' :: rest) : StartsWord rest := by
  induction h generalizing front rest with
  | word named =>
    have hnot : '-' ∉ _ := named.notMem (by decide)
    rw [hcs] at hnot
    simp at hnot
  | join _ hrest ih ihrest =>
    rcases List.append_eq_append_iff.mp hcs with ⟨gap, rfl, hgap⟩ | ⟨gap, rfl, hgap⟩
    · cases gap with
      | nil =>
        obtain ⟨-, rfl⟩ := List.cons.inj hgap
        exact hrest.startsWord
      | cons c gap => exact ihrest (List.cons.inj hgap).2
    · cases gap with
      | nil =>
        obtain ⟨-, rfl⟩ := List.cons.inj hgap
        exact hrest.startsWord
      | cons c gap =>
        obtain ⟨rfl, rfl⟩ := List.cons.inj hgap
        exact (ih rfl).append _

/-! ## When two ids are the same -/

/-- The bases that markup asks for: those of texts and those of fields. -/
inductive IsBase : String → Prop
  | text {name : String} (dashed : Dashed name.toList) : IsBase ("text-" ++ name)
  | field (kind : FieldKind) {name : String} (starts : StartsWord name.toList) :
    IsBase (kind.name ++ "-" ++ name)

theorem FieldKind.hyphen_notMem_name (kind : FieldKind) : '-' ∉ kind.name.toList := by
  cases kind <;> decide

theorem IsBase.exists_split {base : String} (h : IsBase base) :
    ∃ front rest, base.toList = front ++ '-' :: rest ∧ '-' ∉ front ∧ StartsWord rest := by
  cases h with
  | text dashed => exact ⟨"text".toList, _, by simp, by decide, dashed.startsWord⟩
  | field kind starts =>
    exact ⟨kind.name.toList, _, by simp, kind.hyphen_notMem_name, starts⟩

/-- Labels of the ids of markup. -/
def IdLabel.IsFormed : IdLabel → Prop
  | .numbered stem _ ending => '-' ∉ stem.toList ∧ Lacks Char.isDigit ending.toList
  | .named base use => IsBase base ∧ 1 ≤ use

/-- A repeated use of a base has the text of another base. -/
def IdLabel.Clashes (label other : IdLabel) : Prop :=
  ∃ base use, 2 ≤ use ∧ label = .named base use ∧
    other = .named (base ++ "-" ++ toString use) 1

theorem IdLabel.Clashes.text_eq {label other : IdLabel} (h : label.Clashes other) :
    label.text = other.text := by
  obtain ⟨base, use, huse, rfl, rfl⟩ := h
  rw [text, if_neg (by omega), text, if_pos rfl]

theorem toList_numbered (stem ending : String) (number : Nat) :
    (IdLabel.numbered stem number ending).text.toList =
      stem.toList ++ '-' :: ((toString number).toList ++ ending.toList) := by
  simp [IdLabel.text]

/-- The text of a base goes on with a word, that of a stem with a number. -/
theorem numbered_text_ne_named {stem ending base : String} {number use : Nat}
    (hstem : '-' ∉ stem.toList) (hbase : IsBase base) :
    (IdLabel.numbered stem number ending).text ≠ (IdLabel.named base use).text := by
  intro h
  obtain ⟨front, rest, hsplit, hfront, hrest⟩ := hbase.exists_split
  have htext : ∃ tail, (IdLabel.named base use).text.toList = front ++ '-' :: (rest ++ tail) := by
    rw [IdLabel.text]
    split
    · exact ⟨[], by rw [hsplit, List.append_nil]⟩
    · exact ⟨'-' :: (toString use).toList, by simp [hsplit]⟩
  obtain ⟨tail, htail⟩ := htext
  rw [← h, toList_numbered] at htail
  obtain ⟨-, hnumber⟩ := eq_of_first_hyphen hstem hfront htail
  exact not_startsWord_number number _ (hnumber ▸ hrest.append tail)

/-- Repeated uses are told apart by what follows the last hyphen. -/
theorem eq_of_repeated {base other : String} {use count : Nat}
    (h : base ++ "-" ++ toString use = other ++ "-" ++ toString count) :
    base = other ∧ use = count := by
  have hlist := congrArg String.toList h
  simp only [String.toList_append, List.append_assoc] at hlist
  obtain ⟨hbase, huse⟩ := eq_of_last_hyphen (hyphen_notMem_toString use)
    (hyphen_notMem_toString count) hlist
  exact ⟨String.toList_inj.mp hbase, toString_inj huse⟩

/-- **When two labels have the same text**: only if they are the same, or one is a repeated use
whose number the base of the other ends in. -/
theorem IdLabel.text_eq_iff {label other : IdLabel} (hlabel : label.IsFormed)
    (hother : other.IsFormed) :
    label.text = other.text ↔ label = other ∨ label.Clashes other ∨ other.Clashes label := by
  refine ⟨fun h => ?_, ?_⟩
  · cases label with
    | numbered stem number ending =>
      cases other with
      | numbered stem' number' ending' =>
        have hlist := congrArg String.toList h
        rw [toList_numbered, toList_numbered] at hlist
        obtain ⟨hstem, hrest⟩ := eq_of_first_hyphen hlabel.1 hother.1 hlist
        obtain ⟨hnumber, hending⟩ := eq_of_number_append hlabel.2 hother.2 hrest
        exact .inl (by rw [String.toList_inj.mp hstem, hnumber, String.toList_inj.mp hending])
      | named base use => exact absurd h (numbered_text_ne_named hlabel.1 hother.1)
    | named base use =>
      cases other with
      | numbered stem number ending =>
        exact absurd h.symm (numbered_text_ne_named hother.1 hlabel.1)
      | named base' use' =>
        obtain ⟨-, huse⟩ := hlabel
        obtain ⟨-, huse'⟩ := hother
        rw [text, text] at h
        -- a base by itself has no number, so the cases are which of the two uses is the first
        split at h <;> split at h
        · subst use use' h
          exact .inl rfl
        · subst use h
          exact .inr (.inr ⟨base', use', by omega, rfl, rfl⟩)
        · subst use' h
          exact .inr (.inl ⟨base, use, by omega, rfl, rfl⟩)
        · obtain ⟨rfl, rfl⟩ := eq_of_repeated h
          exact .inl rfl
  · rintro (rfl | h | h)
    · rfl
    · exact h.text_eq
    · exact h.text_eq.symm

/-- The requests that markup makes: stems and bases keep apart at their first hyphen, and derived
ids at their endings. -/
def IdRequest.IsFormed : IdRequest → Prop
  | .numbered stem endings =>
    '-' ∉ stem.toList ∧ ("" :: endings).Nodup ∧ ∀ ending ∈ endings, Lacks Char.isDigit ending.toList
  | .named base => IsBase base

theorem IdRequest.IsFormed.hasDistinctEndings {request : IdRequest} (h : request.IsFormed) :
    request.HasDistinctEndings := by
  cases request with
  | numbered stem endings => exact h.2.1
  | named base => trivial

theorem isFormed_of_mem_labels {requests : List IdRequest} {ids : IdSupply} {label : IdLabel}
    (hrequests : ∀ request ∈ requests, request.IsFormed) (h : label ∈ ids.labels requests) :
    label.IsFormed := by
  induction requests generalizing ids with
  | nil => cases h
  | cons request requests ih =>
    obtain ⟨hrequest, hrequests⟩ := List.forall_mem_cons.mp hrequests
    rcases List.mem_append.mp h with h | h
    · cases request with
      | numbered stem endings =>
        obtain ⟨ending, hending, rfl⟩ := List.mem_map.mp h
        refine ⟨hrequest.1, ?_⟩
        rcases List.mem_cons.mp hending with rfl | hending
        · exact lacks_nil _
        · exact hrequest.2.2 ending hending
      | named base =>
        obtain rfl := List.mem_singleton.mp h
        exact ⟨hrequest, Nat.le_add_left _ _⟩
    · exact ih hrequests h

/-- Formed requests are given different ids, except where a base ends in the number of a repeated
use of what stands before it. -/
theorem nodup_given_iff {requests : List IdRequest}
    (h : ∀ request ∈ requests, request.IsFormed) :
    (IdSupply.given {} requests).Nodup ↔
      ∀ base use, 2 ≤ use → use ≤ requests.count (.named base) →
        .named (base ++ "-" ++ toString use) ∉ requests := by
  have hnodup := nodup_labels (fun request hrequest => (h request hrequest).hasDistinctEndings) {}
  have hmem (base : String) (use : Nat) : .named base use ∈ IdSupply.labels {} requests ↔
      1 ≤ use ∧ use ≤ requests.count (.named base) := by
    have hnone : IdSupply.usesOf {} base = 0 := rfl
    rw [named_mem_labels, hnone, Nat.zero_add, Nat.succ_le_iff]
  rw [← map_text_labels, List.nodup_map_iff_inj_on hnodup]
  refine ⟨fun hinj base use huse hcount hclash => ?_, fun hfree label hlabel other hother htext => ?_⟩
  · -- a repeated use and the first use of the longer base are two labels with one text
    have hlabel := (hmem base use).mpr ⟨by omega, hcount⟩
    have hother := (hmem (base ++ "-" ++ toString use) 1).mpr
      ⟨le_rfl, List.one_le_count_iff.mpr hclash⟩
    have heq := hinj _ hlabel _ hother
      (IdLabel.Clashes.text_eq ⟨base, use, huse, rfl, rfl⟩)
    obtain ⟨-, rfl⟩ := IdLabel.named.inj heq
    omega
  · have hclash {label other : IdLabel} (hlabel : label ∈ IdSupply.labels {} requests)
        (hother : other ∈ IdSupply.labels {} requests) : ¬label.Clashes other := by
      rintro ⟨base, use, huse, rfl, rfl⟩
      refine hfree base use huse ((hmem base use).mp hlabel).2 ?_
      exact List.one_le_count_iff.mp ((hmem _ 1).mp hother).2
    -- two labels with one text are the same label, or clash in one order or the other
    rcases (IdLabel.text_eq_iff (isFormed_of_mem_labels h hlabel)
      (isFormed_of_mem_labels h hother)).mp htext with heq | hbad | hbad
    · exact heq
    · exact absurd hbad (hclash hlabel hother)
    · exact absurd hbad (hclash hother hlabel)

/-! ## The requests of markup -/

theorem isIdentifier_of_pathOf? {cs : List Char} {path : Path} (h : pathOf? cs = some path) :
    ∀ segment ∈ path.segments, IsIdentifier segment := by
  unfold pathOf? at h
  split at h
  · cases h
  · rename_i root fields _
    split at h
    · rename_i hall
      obtain rfl := Option.some.inj h
      intro segment hsegment
      obtain ⟨piece, hpiece, rfl⟩ : ∃ piece ∈ root :: fields, String.ofList piece = segment := by
        rwa [← List.mem_map]
      rw [IsIdentifier, String.toList_ofList]
      exact List.all_eq_true.mp hall piece hpiece
    · cases h

theorem isIdentifier_of_mem_templateParts {cs : List Char} {path : Path}
    (h : .hole path ∈ templateParts cs) : ∀ segment ∈ path.segments, IsIdentifier segment := by
  fun_induction templateParts cs with
  | case1 => cases h
  | case2 rest found after hhole _ ih =>
    rcases List.mem_cons.mp h with hpath | h
    · obtain rfl := TemplatePart.hole.inj hpath
      unfold hole? at hhole
      split at hhole
      · cases hhole
      · obtain ⟨_, hpathOf, hfound⟩ := Option.map_eq_some_iff.mp hhole
        obtain ⟨rfl, -⟩ := Prod.mk.inj hfound
        exact isIdentifier_of_pathOf? hpathOf
    · exact ih h
  | case3 rest _ ih =>
    rcases List.mem_cons.mp h with hpath | h
    · cases hpath
    · exact ih h
  | case4 c rest _ ih =>
    rcases List.mem_cons.mp h with hpath | h
    · cases hpath
    · exact ih h

theorem hole_mem_of_mem_pathsAfter {before : Option Char} {parts : List TemplatePart} {path : Path}
    (h : path ∈ pathsAfter before parts) : .hole path ∈ parts := by
  fun_induction pathsAfter before parts with
  | case1 => cases h
  | case2 found parts ih => exact List.mem_cons_of_mem _ (ih h)
  | case3 before found parts _ ih =>
    rcases List.mem_cons.mp h with rfl | h
    · exact List.mem_cons_self
    · exact List.mem_cons_of_mem _ (ih h)
  | case4 before c parts ih => exact List.mem_cons_of_mem _ (ih h)

theorem toList_hyphenated (text : String) :
    (hyphenated text).toList = text.toList.map fun c => if c = '.' then '-' else c :=
  String.toList_ofList

theorem IsIdentifier.hyphenated_eq {name : String} (h : IsIdentifier name) :
    hyphenated name = name := by
  rw [← String.toList_inj, toList_hyphenated]
  refine (List.map_congr_left fun c hc => if_neg ?_).trans (List.map_id _)
  rintro rfl
  exact h.notMem (by decide) hc

/-- Words put together with points or hyphens between them. -/
theorem dashed_hyphenated_intercalate {gap : String} (hgap : hyphenated gap = "-")
    {texts : List String} (hne : texts ≠ [])
    (h : ∀ text ∈ texts, Dashed (hyphenated text).toList) :
    Dashed (hyphenated (gap.intercalate texts)).toList := by
  induction texts with
  | nil => exact absurd rfl hne
  | cons text texts ih =>
    obtain ⟨htext, htexts⟩ := List.forall_mem_cons.mp h
    cases texts with
    | nil =>
      rw [String.intercalate_singleton]
      exact htext
    | cons next texts =>
      have hrest := ih (List.cons_ne_nil _ _) htexts
      have hsplit : (hyphenated (gap.intercalate (text :: next :: texts))).toList =
          (hyphenated text).toList ++ '-' :: (hyphenated (gap.intercalate (next :: texts))).toList := by
        have hdash := congrArg String.toList hgap
        rw [toList_hyphenated] at hdash
        simp only [toList_hyphenated, String.toList_intercalate, List.map_cons,
          List.intercalate_cons_cons, List.map_append, hdash]
        simp
      rw [hsplit]
      exact .join htext hrest

theorem dashed_hyphenated_path {path : Path} (h : ∀ segment ∈ path.segments, IsIdentifier segment) :
    Dashed (hyphenated path.text).toList := by
  refine dashed_hyphenated_intercalate rfl (List.cons_ne_nil _ _) fun segment hsegment => ?_
  rw [(h segment hsegment).hyphenated_eq]
  exact .word (h segment hsegment)

namespace ElementHead

variable (head : ElementHead) (scope : Scope)

theorem textRequests_formed : ∀ request ∈ head.textRequests scope, request.IsFormed := by
  intro request hrequest
  unfold textRequests at hrequest
  split at hrequest
  · cases hrequest
  · rename_i hpaths
    obtain rfl := List.mem_singleton.mp hrequest
    refine IsBase.text (dashed_hyphenated_intercalate rfl (by simpa using hpaths) ?_)
    intro text htext
    unfold textPaths at htext
    split at htext
    · cases htext
    · obtain ⟨path, hpath, rfl⟩ := List.mem_map.mp htext
      have hhole := hole_mem_of_mem_pathsAfter (mem_distinct.mp hpath)
      exact dashed_hyphenated_path (isIdentifier_of_mem_templateParts hhole)

theorem fieldRequest_formed {names : List String} (hnames : ∀ name ∈ names, IsIdentifier name)
    (kind : FieldKind) : (head.fieldRequest names kind).IsFormed := by
  unfold fieldRequest
  cases hbinding : head.binding? names with
  | none => exact ⟨kind.hyphen_notMem_name, List.nodup_singleton _, List.forall_mem_nil _⟩
  | some name =>
    obtain ⟨-, hroot⟩ := Option.filter_eq_some_iff.mp hbinding
    have hstart := (hnames _ (List.contains_iff_mem.mp hroot)).startsWord
    refine IsBase.field kind ?_
    rw [toList_hyphenated]
    obtain ⟨c, rest, hfront, hc⟩ := hstart
    rw [String.toList_ofList] at hfront
    cases hname : name.toList with
    | nil =>
      rw [hname] at hfront
      cases hfront
    | cons d cs =>
      -- the root is not empty, so it starts where the name does
      rw [hname, List.takeWhile_cons] at hfront
      split at hfront
      · rename_i hd
        obtain ⟨rfl, -⟩ := List.cons.inj hfront
        rw [List.map_cons, if_neg (by simpa using hd)]
        exact ⟨d, _, rfl, hc⟩
      · cases hfront

/-- The requests of an element are formed if its fields are bound to identifiers. -/
theorem requests_formed {names : List String} (hnames : ∀ name ∈ names, IsIdentifier name) :
    ∀ request ∈ head.requests scope names, request.IsFormed := by
  intro request hrequest
  unfold requests at hrequest
  split at hrequest
  · exact head.textRequests_formed scope request hrequest
  · obtain rfl := List.mem_singleton.mp hrequest
    exact head.fieldRequest_formed hnames _
  · cases hrequest

end ElementHead

theorem ViewChain.mem_endings {ending : String} :
    (chain : ViewChain) → {index : Nat} → ending ∈ chain.endings index →
      ending = "-else" ∨ ∃ later, index ≤ later ∧ ending = "-elseif-" ++ toString later
  | .elseIf _ _ rest, index, h => by
    rw [endings] at h
    rcases List.mem_cons.mp h with rfl | h
    · exact .inr ⟨index, le_rfl, rfl⟩
    · rcases rest.mem_endings h with hending | ⟨later, hlater, hending⟩
      · exact .inl hending
      · exact .inr ⟨later, by omega, hending⟩
  | .otherwise _, _, h => .inl (List.mem_singleton.mp h)

theorem elseIf_ne_else (index : Nat) : "-elseif-" ++ toString index ≠ "-else" := by
  intro h
  have hlist := congrArg String.toList h
  simp at hlist

theorem ViewChain.nodup_endings : (chain : ViewChain) → (index : Nat) → (chain.endings index).Nodup
  | .done, _ => List.nodup_nil
  | .otherwise _, _ => List.nodup_singleton _
  | .elseIf _ _ rest, index => by
    rw [endings, List.nodup_cons]
    refine ⟨fun h => ?_, rest.nodup_endings (index + 1)⟩
    rcases rest.mem_endings h with hending | ⟨later, hlater, hending⟩
    · exact elseIf_ne_else index hending
    · have hlist := congrArg String.toList hending
      rw [String.toList_append, String.toList_append] at hlist
      have heq := toString_inj (List.append_cancel_left hlist)
      omega

theorem ViewChain.lacks_of_mem_endings {chain : ViewChain} {ending : String}
    (h : ending ∈ chain.endings 0) : ending ∉ ["", "-if"] ∧ Lacks Char.isDigit ending.toList := by
  rcases chain.mem_endings h with rfl | ⟨later, -, rfl⟩
  · exact ⟨by decide, lacks_cons.mpr (by decide)⟩
  · have hlist : ("-elseif-" ++ toString later).toList =
        '-' :: ("elseif-".toList ++ (toString later).toList) := by
      rw [String.toList_append]
      rfl
    refine ⟨fun hmem => ?_, ?_⟩
    · have hshort : _ ∈ ["", "-if"].map String.toList := List.mem_map_of_mem hmem
      rw [hlist] at hshort
      simp at hshort
    · rw [hlist]
      exact lacks_cons.mpr (by decide)

theorem conditional_isFormed (rest : ViewChain) :
    (IdRequest.numbered "cond" ("-if" :: rest.endings 0)).IsFormed := by
  have hrest {ending : String} (h : ending ∈ rest.endings 0) := rest.lacks_of_mem_endings h
  refine ⟨by decide, ?_, ?_⟩
  · have hsplit : "" :: "-if" :: rest.endings 0 = ["", "-if"] ++ rest.endings 0 := rfl
    rw [hsplit, List.nodup_append]
    refine ⟨by decide, rest.nodup_endings 0, ?_⟩
    rintro ending hending _ hlater rfl
    exact (hrest hlater).1 hending
  · refine List.forall_mem_cons.mpr ⟨lacks_cons.mpr (by decide), fun ending hending => ?_⟩
    exact (hrest hending).2

theorem Component.IsNamed.states {component : Component} (h : component.IsNamed) :
    ∀ declared ∈ component.states, IsIdentifier declared.name := by
  refine h.of_mem_filterMap .state fun picked declared hsome => ?_
  split at hsome <;> cases hsome
  rfl

theorem Component.IsNamed.computed {component : Component} (h : component.IsNamed) :
    ∀ declared ∈ component.computed, IsIdentifier declared.name := by
  refine h.of_mem_filterMap .computed fun picked declared hsome => ?_
  split at hsome <;> cases hsome
  rfl

theorem Program.IsNamed.bindable {program : Program} (h : program.IsNamed) :
    ∀ name ∈ program.bindable, IsIdentifier name := by
  intro name hname
  rcases List.mem_append.mp hname with hname | hname
  · obtain ⟨declared, hdeclared, rfl⟩ := List.mem_map.mp hname
    obtain ⟨component, hcomponent, hstate⟩ := List.mem_flatMap.mp hdeclared
    exact (h component hcomponent).states declared hstate
  · obtain ⟨declared, hdeclared, rfl⟩ := List.mem_map.mp hname
    obtain ⟨component, hcomponent, hcomputed⟩ := List.mem_flatMap.mp hdeclared
    exact (h component hcomponent).computed declared hcomputed

mutual

theorem View.requests_formed {names : List String}
    (hnames : ∀ name ∈ names, IsIdentifier name) (scope : Scope) :
    (view : View) → view.IsNamed → ∀ request ∈ view.requests names scope, request.IsFormed
  | .element head children, h => by
    rw [View.requests, List.forall_mem_append]
    exact ⟨viewsRequests_formed hnames scope.inner children h, head.requests_formed scope hnames⟩
  | .expanded name children, h => by
    rw [View.requests, List.forall_mem_append, List.forall_mem_singleton]
    refine ⟨viewsRequests_formed hnames scope.inner children h.2, ?_⟩
    exact ⟨h.1.identifier.notMem (by decide), List.nodup_singleton _, List.forall_mem_nil _⟩
  | .missing _, _ => by
    rw [View.requests]
    exact List.forall_mem_nil _
  | .recursive _, _ => by
    rw [View.requests]
    exact List.forall_mem_nil _
  | .conditional _ body rest, h => by
    rw [View.requests, List.forall_mem_cons, List.forall_mem_append]
    exact ⟨conditional_isFormed rest, viewsRequests_formed hnames scope.inner body h.1,
      rest.requests_formed hnames scope h.2⟩
  | .loop item array body, h => by
    rw [View.requests, List.forall_mem_cons]
    refine ⟨⟨by decide, by decide, ?_⟩, viewsRequests_formed hnames (.ofLoop item array) body h⟩
    exact List.forall_mem_singleton.mpr (lacks_cons.mpr (by decide))

theorem ViewChain.requests_formed {names : List String}
    (hnames : ∀ name ∈ names, IsIdentifier name) (scope : Scope) :
    (chain : ViewChain) → chain.IsNamed → ∀ request ∈ chain.requests names scope, request.IsFormed
  | .done, _ => by
    rw [ViewChain.requests]
    exact List.forall_mem_nil _
  | .elseIf _ body rest, h => by
    rw [ViewChain.requests, List.forall_mem_append]
    exact ⟨viewsRequests_formed hnames scope.inner body h.1, rest.requests_formed hnames scope h.2⟩
  | .otherwise body, h => by
    rw [ViewChain.requests]
    exact viewsRequests_formed hnames scope.inner body h

theorem viewsRequests_formed {names : List String}
    (hnames : ∀ name ∈ names, IsIdentifier name) (scope : Scope) :
    (views : List View) → ViewsNamed views →
      ∀ request ∈ viewsRequests names scope views, request.IsFormed
  | [], _ => by
    rw [viewsRequests]
    exact List.forall_mem_nil _
  | view :: views, h => by
    rw [viewsRequests, List.forall_mem_append]
    exact ⟨view.requests_formed hnames scope h.1, viewsRequests_formed hnames scope views h.2⟩

end

/-- The requests of a program whose names are identifiers are formed. -/
theorem Program.requests_formed {program : Program} (h : program.IsNamed) :
    ∀ request ∈ program.requests, request.IsFormed := by
  intro request hrequest
  obtain ⟨component, hcomponent, hrequest⟩ := List.mem_flatMap.mp hrequest
  unfold Component.requests at hrequest
  split at hrequest
  · cases hrequest
  · exact viewsRequests_formed h.bindable {} _ (program.componentViews_named h (h _ hcomponent))
      request hrequest

/-! ## Ids of sources -/

/-- Only a field can ask for a base that ends in the number of a repeated use, and what it clashes
with is a field of its kind. -/
theorem exists_field_of_repeated {base : String} {use : Nat} (hbase : IsBase base)
    (h : IsBase (base ++ "-" ++ toString use)) :
    ∃ kind name, base = FieldKind.name kind ++ "-" ++ name := by
  generalize hfull : base ++ "-" ++ toString use = full at h
  have hlist : base.toList ++ '-' :: (toString use).toList = full.toList := by
    rw [← hfull]
    simp
  cases hbase with
  | field kind _ => exact ⟨kind, _, rfl⟩
  | @text words dashed =>
    -- a text base is never a repeated use, as after its hyphens words start, nor that of a field
    exfalso
    cases h with
    | @text name dashed' =>
      have hwords : Dashed ("text".toList ++ '-' :: name.toList) := .join (.word rfl) dashed'
      have hstart := hwords.startsWord_after (Eq.trans (by simp) hlist.symm)
      exact not_startsWord_number use [] (by rwa [List.append_nil])
    | @field kind name _ =>
      have hsplit : "text".toList ++ '-' :: (words.toList ++ '-' :: (toString use).toList) =
          kind.name.toList ++ '-' :: name.toList := by
        simpa using hlist
      obtain ⟨htext, -⟩ := eq_of_first_hyphen (by decide) kind.hyphen_notMem_name hsplit
      cases kind <;> exact absurd htext (by decide)

theorem ofField_repeated (kind : FieldKind) (name : String) (use : Nat) :
    IdRequest.ofField kind (name ++ "-" ++ toString use) =
      .named (kind.name ++ "-" ++ name ++ "-" ++ toString use) := by
  simp [IdRequest.ofField, String.append_assoc]

/-- **When the ids of a source are pairwise distinct.**  All ids that the markup of a source draws,
with those derived from them, are distinct exactly if no field is bound to a name that is, with
hyphens for points, that of a repeated field of the same kind and the number of one of its
repetitions.  The markup holds no other ids, except the names of the components of the page. -/
theorem nodup_ids_iff (source : String) :
    ((parseSource source).program.ids.Nodup ↔
      ∀ kind name use, 2 ≤ use →
        use ≤ (parseSource source).program.requests.count (.ofField kind name) →
        .ofField kind (name ++ "-" ++ toString use) ∉ (parseSource source).program.requests) ∧
      (componentsHtml (parseSource source).program (parseSource source).program.components {}).2 =
        IdSupply.after {} (parseSource source).program.requests ∧
      Html.forestIds (parseSource source).program.html ≤
        (parseSource source).program.topNames + ((parseSource source).program.ids :
          Multiset String) := by
  have hformed := Program.requests_formed (parseSource_isNamed source)
  refine ⟨(nodup_given_iff hformed).trans ⟨fun h kind name use huse hcount => ?_,
    fun h base use huse hcount hmem => ?_⟩, Program.html_answers _⟩
  · rw [ofField_repeated]
    exact h (kind.name ++ "-" ++ name) use huse hcount
  · have hpos := Nat.lt_of_lt_of_le (Nat.zero_lt_of_lt huse) hcount
    have hbase := hformed _ (List.count_pos_iff.mp hpos)
    obtain ⟨kind, name, rfl⟩ := exists_field_of_repeated hbase (hformed _ hmem)
    refine h kind name use huse hcount ?_
    rwa [ofField_repeated]

/-- A field bound to the text `a.2` has the id of the second field bound to `a`. -/
theorem ids_of_numbered_binding :
    (parseSource ("component C \x7b\nstate a = 0\ninput value=a\ninput value=a\n" ++
      "input value=\"a.2\"\n\x7d")).program.ids = ["input-a", "input-a-2", "input-a-2"] ∧
    ¬(parseSource ("component C \x7b\nstate a = 0\ninput value=a\ninput value=a\n" ++
      "input value=\"a.2\"\n\x7d")).program.ids.Nodup := by
  decide +kernel

end UiLang
