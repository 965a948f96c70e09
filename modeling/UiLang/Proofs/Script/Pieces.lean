import UiLang.Proofs.Script.Qualification

/-!
# A qualified text, piece by piece

A text is qualified from the front, word by word, and no decision looks past the gap after a word.
So every whole word has a place in the qualified text: it stands right after what is written for the
text before it, with `state.` in front or as it is.

A word counts as a local once it has come next after `let`, `const` or `var`, whatever stands in the
gap between the two.

## Main definitions

* `WordPlace`: the places of a whole word in a text
* `Qualifier.Writes`, `Qualifier.Keeps`, `Qualifier.PutsState`: what is written at a place
* `NextToKeyword`, `WordPlace.IsLocal`: words next to a declaring keyword

## Main results

* `CutFrom.wordsFrom_eq`, `splitWords_append`: a text is cut into whole words in one way only
* `isLocalAfter_iff_nextToKeyword`, `mem_locals_iff_nextToKeyword`: locals, as the text shows them
* `Qualifier.writes_qualifyWord`: what is written at a place
* `Qualifier.putsState_iff`, `Qualifier.keeps_iff`: one of the two is done at each place
-/

namespace UiLang

/-! ## Cuts are unique -/

namespace CutFrom

variable {text text' : List Char} {words earlier later later' : List ScriptWord}

theorem startsAtWord (h : CutFrom text words) : StartsAtWord text := by
  cases h with
  | nil => exact lacks_nil _
  | @cons word gap text words isWord ends wordless rest =>
    cases word with
    | nil => exact isWord.elim
    | cons c cs => exact lacks_cons.mpr (by simp [isWord.1])

theorem eq_nil_of_wordsText (h : CutFrom text words) (htext : text = []) : words = [] := by
  by_contra hne
  obtain ⟨c, cs, rfl, -⟩ := h.exists_cons hne
  cases htext

/-- **A text that starts with a word is cut in one way only.** -/
theorem wordsFrom_eq (h : CutFrom text words) : wordsFrom text = words := by
  induction h with
  | nil => rw [wordsFrom]
  | @cons word gap text words isWord ends wordless rest ih =>
    cases word with
    | nil => exact isWord.elim
    | cons c cs =>
      have hgap : ∀ d ∈ gap, (!isWordStart d) = true := by simpa using wordless
      rw [List.cons_append, wordsFrom, takeWhile_append_of_lacks isWord.2 ends,
        dropWhile_append_of_lacks isWord.2 ends, takeWhile_append_of_lacks hgap rest.startsAtWord,
        dropWhile_append_of_lacks hgap rest.startsAtWord, ih]

/-- What follows some words of a cut may be exchanged for another cut.  Only the last word of a text
may lack a gap, so nothing can be put after all words. -/
theorem exchange (h : CutFrom text (earlier ++ later)) (h' : CutFrom text' later')
    (hnil : later = [] → later' = []) :
    CutFrom (wordsText earlier ++ text') (earlier ++ later') := by
  induction earlier generalizing text with
  | nil => exact h'
  | cons w earlier ih =>
    rw [List.cons_append] at h
    cases h with
    | @cons word gap text words isWord ends wordless rest =>
      have hrest := ih rest
      have hends : Lacks isWordChar (gap ++ (wordsText earlier ++ text')) := by
        by_cases hmore : earlier ++ later = []
        · -- no words follow, before as after
          obtain ⟨rfl, rfl⟩ := List.append_eq_nil_iff.mp hmore
          obtain rfl := hnil rfl
          cases h'
          cases rest
          simpa using ends
        · obtain ⟨hgap, hlacks⟩ := rest.gap_parts hmore ends
          obtain ⟨c, cs, rfl⟩ := List.exists_cons_of_ne_nil hgap
          exact lacks_cons.mpr (lacks_cons.mp hlacks)
      rw [wordsText_cons, List.append_assoc, List.append_assoc]
      exact .cons isWord hends wordless hrest

theorem front (h : CutFrom text (earlier ++ later)) : CutFrom (wordsText earlier) earlier := by
  have hfront := h.exchange .nil fun _ => rfl
  rwa [List.append_nil, List.append_nil] at hfront

theorem back (h : CutFrom text (earlier ++ later)) : CutFrom (wordsText later) later := by
  induction earlier generalizing text with
  | nil =>
    rw [List.nil_append] at h
    rwa [← h.eq_wordsText]
  | cons w earlier ih =>
    cases h with
    | cons isWord ends wordless rest => exact ih rest

theorem tail {w : ScriptWord} (h : CutFrom text (w :: later)) :
    CutFrom (wordsText later) later :=
  back (show CutFrom text ([w] ++ later) from h)

theorem gap_ne_nil {w : ScriptWord} (h : CutFrom text (w :: later)) (hlater : later ≠ []) :
    w.gap ≠ [] := by
  cases h with
  | cons isWord ends wordless rest => exact (rest.gap_parts hlater ends).1

theorem wordless_gap {w : ScriptWord} (h : CutFrom text (w :: later)) :
    ∀ c ∈ w.gap, isWordStart c = false := by
  cases h with
  | cons isWord ends wordless rest => exact wordless

end CutFrom

section Wordless

variable {gap text : List Char} (hgap : ∀ c ∈ gap, isWordStart c = false)
include hgap

theorem takeWhile_append_of_startsAtWord (htext : StartsAtWord text) :
    (gap ++ text).takeWhile (!isWordStart ·) = gap :=
  takeWhile_append_of_lacks (by simpa using hgap) htext

theorem dropWhile_append_of_startsAtWord (htext : StartsAtWord text) :
    (gap ++ text).dropWhile (!isWordStart ·) = text :=
  dropWhile_append_of_lacks (by simpa using hgap) htext

/-- **Every text is cut in one way only.** -/
theorem splitWords_append {words : List ScriptWord} (h : CutFrom text words) :
    splitWords (gap ++ text) = (gap, words) := by
  rw [splitWords, takeWhile_append_of_startsAtWord hgap h.startsAtWord,
    dropWhile_append_of_startsAtWord hgap h.startsAtWord, h.wordsFrom_eq]

end Wordless

theorem IsScriptWord.startsAtWord {word : List Char} (h : IsScriptWord word) (after : List Char) :
    StartsAtWord (word ++ after) := by
  cases word with
  | nil => exact h.elim
  | cons c cs => exact lacks_cons.mpr (by simp [h.1])

theorem toNat_le_of_isAlpha {c : Char} (h : c.isAlpha = true) : c.toNat ≤ 122 := by
  rcases (Bool.or_eq_true _ _).mp h with hupper | hlower
  · have hlow : c.toNat ≤ 'Z'.val.toNat :=
      UInt32.le_iff_toNat_le.mp (of_decide_eq_true hupper).2
    exact Nat.le_trans hlow (by decide)
  · exact UInt32.le_iff_toNat_le.mp (of_decide_eq_true ((Bool.and_eq_true _ _).mp hlower).2)

/-- White space is no part of a word. -/
theorem not_isWordChar_of_isBlank {c : Char} (h : Text.isBlank c = true) : isWordChar c = false := by
  rw [Bool.eq_false_iff]
  intro hchar
  have hbounds : c.toNat ≠ 36 ∧ (c.toNat < 48 ∨ 122 < c.toNat) := by
    simp only [Text.isBlank, Bool.or_eq_true, Bool.and_eq_true, decide_eq_true_eq, beq_iff_eq] at h
    omega
  unfold isWordChar Char.isAlphanum at hchar
  simp only [Bool.or_eq_true, beq_iff_eq] at hchar
  rcases hchar with ((halpha | hdigit) | rfl) | rfl
  · have hlow := le_toNat_of_isAlpha halpha
    have hhigh := toNat_le_of_isAlpha halpha
    omega
  · have hdigit' : 48 ≤ c.toNat ∧ c.toNat ≤ 57 := by
      simpa [Char.isDigit, UInt32.le_iff_toNat_le] using hdigit
    omega
  · cases h
  · cases h

theorem not_isWordStart_of_isBlank {c : Char} (h : Text.isBlank c = true) :
    isWordStart c = false := by
  have hchar := not_isWordChar_of_isBlank h
  rw [Bool.eq_false_iff] at hchar ⊢
  exact fun hstart => hchar (isWordChar_of_isWordStart hstart)

/-- Whether a word is assigned to is decided before the next word starts. -/
theorem exists_assigns_append_iff {gap text : List Char}
    (hgap : ∀ c ∈ gap, isWordStart c = false) (htext : StartsAtWord text) :
    (∃ value, Assigns gap value) ↔ ∃ value, Assigns (gap ++ text) value := by
  have hhead : ∀ c, isWordStart c = false → text.head? ≠ some c := by
    intro c hc hhead
    have hstart : (!isWordStart c) = false := htext c hhead
    rw [hc] at hstart
    cases hstart
  constructor
  · rintro ⟨value, blanks, rfl, hblanks, hequal, harrow⟩
    refine ⟨value ++ text, blanks, by simp, hblanks, ?_⟩
    cases value with
    | nil => exact ⟨hhead '=' (by decide), hhead '>' (by decide)⟩
    | cons c value => exact ⟨hequal, harrow⟩
  · rintro ⟨rest, blanks, heq, hblanks, hequal, harrow⟩
    rcases List.append_eq_append_iff.mp heq with ⟨more, rfl, hmore⟩ | ⟨more, rfl, hmore⟩
    · -- the text would start with white space or with the `=`
      cases more with
      | nil => exact absurd (congrArg List.head? hmore) (hhead '=' (by decide))
      | cons c more =>
        have hc := not_isWordStart_of_isBlank (hblanks c (by simp))
        exact absurd (congrArg List.head? hmore) (hhead c hc)
    · cases more with
      | nil => exact absurd (congrArg List.head? hmore.symm) (hhead '=' (by decide))
      | cons c value =>
        obtain ⟨rfl, rfl⟩ := List.cons.inj hmore
        refine ⟨value, blanks, rfl, hblanks, ?_⟩
        cases value with
        | nil => simp
        | cons c value => exact ⟨hequal, harrow⟩

/-! ## Places of words -/

/-- A place where the whole word `word` stands in a text. -/
structure WordPlace (text word : List Char) where
  before : List Char
  after : List Char
  text_eq : text = before ++ (word ++ after)
  isWhole : IsWholeWord before word after

namespace WordPlace

variable {text word : List Char}

/-- What stands between the word and the next one. -/
def gap (place : WordPlace text word) : List Char :=
  place.after.takeWhile (!isWordStart ·)

theorem wordless_gap (place : WordPlace text word) : ∀ c ∈ place.gap, isWordStart c = false :=
  fun _ hc => isWordStart_of_mem_takeWhile hc

/-- An assignment to a word is seen in the gap after it. -/
theorem exists_assigns_iff (place : WordPlace text word) :
    (∃ value, Assigns place.gap value) ↔ ∃ value, Assigns place.after value := by
  have happend := exists_assigns_append_iff place.wordless_gap (lacks_dropWhile _ place.after)
  rwa [gap, List.takeWhile_append_dropWhile] at happend

/-- The words around a place: `start` stands before all of them. -/
structure IsCutAt (place : WordPlace text word) (start : List Char)
    (earlier later : List ScriptWord) : Prop where
  wordless : ∀ c ∈ start, isWordStart c = false
  cut : CutFrom (wordsText (earlier ++ ⟨word, place.gap⟩ :: later))
    (earlier ++ ⟨word, place.gap⟩ :: later)
  before_eq : place.before = start ++ wordsText earlier
  text_eq_words : text = start ++ wordsText (earlier ++ ⟨word, place.gap⟩ :: later)

theorem IsCutAt.splitWords_eq {place : WordPlace text word} {start : List Char}
    {earlier later : List ScriptWord} (h : place.IsCutAt start earlier later) :
    splitWords text = (start, earlier ++ ⟨word, place.gap⟩ :: later) :=
  (congrArg splitWords h.text_eq_words).trans (splitWords_append h.wordless h.cut)

theorem eq_of_splitWords {earlier later : List ScriptWord} {w : ScriptWord}
    (h : (splitWords text).2 = earlier ++ w :: later) :
    text = (splitWords text).1 ++ wordsText earlier ++ (w.word ++ (w.gap ++ wordsText later)) := by
  have hwhole := (isCut_splitWords text).whole
  rwa [h, wordsText_append, wordsText_cons, ← List.append_assoc] at hwhole

/-- A word of a text stands at a place of it. -/
def ofSplit {earlier later : List ScriptWord} {w : ScriptWord}
    (h : (splitWords text).2 = earlier ++ w :: later) : WordPlace text w.word where
  before := (splitWords text).1 ++ wordsText earlier
  after := w.gap ++ wordsText later
  text_eq := eq_of_splitWords h
  isWhole := (isCut_splitWords text).isWholeWord earlier w later h

/-- Where a word stands, the text is cut. -/
theorem exists_isCutAt (place : WordPlace text word) :
    ∃ start earlier later, place.IsCutAt start earlier later := by
  have hstart : ∀ c ∈ (splitWords text).1, isWordStart c = false :=
    fun c hc => isWordStart_of_mem_takeWhile hc
  have hcut := cutFrom_splitWords text
  obtain ⟨earlier, ⟨word', gap⟩, later, hwords, hword, hbefore⟩ :=
    (isCut_splitWords text).exists_word place.before word place.after place.text_eq place.isWhole
  change word' = word at hword
  subst hword
  have htext := (isCut_splitWords text).whole
  rw [hwords] at hcut htext
  -- the gap of the cut is the gap of the place
  have hafter : place.after = gap ++ wordsText later := by
    have heq := place.text_eq.symm.trans htext
    rw [hbefore, wordsText_append, wordsText_cons] at heq
    simpa using heq
  obtain rfl : place.gap = gap := by
    rw [WordPlace.gap, hafter]
    exact takeWhile_append_of_startsAtWord hcut.back.wordless_gap hcut.back.tail.startsAtWord
  exact ⟨_, earlier, later, hstart, hcut.eq_wordsText ▸ hcut, hbefore, htext⟩

end WordPlace

/-! ## Locals -/

/-- In a text, the word `name` comes next after `let`, `const` or `var`: what stands `between` the
two holds no word. -/
def NextToKeyword (text name between : List Char) : Prop :=
  ∃ (keyword : List Char) (at₁ : WordPlace text keyword) (at₂ : WordPlace text name),
    String.ofList keyword ∈ ["let", "const", "var"] ∧
      at₂.before = at₁.before ++ (keyword ++ between) ∧ ∀ c ∈ between, isWordStart c = false

/-- Up to a place, and at the place itself, its word has come next after `let`, `const` or `var`. -/
def WordPlace.IsLocal {text word : List Char} (place : WordPlace text word) : Prop :=
  ∃ between, NextToKeyword (place.before ++ word) word between

/-- The next word of a cut: what stands between two places without a word between them is the gap
after the first one. -/
theorem WordPlace.IsCutAt.next_word {text word name between start : List Char}
    {place : WordPlace text word} {earlier later : List ScriptWord}
    (h : place.IsCutAt start earlier later) (next : WordPlace text name)
    (hbefore : next.before = place.before ++ (word ++ between))
    (hbetween : ∀ c ∈ between, isWordStart c = false) :
    place.gap = between ∧ ∃ w later', later = w :: later' ∧ w.word = name := by
  have hafter : place.after = between ++ (name ++ next.after) := by
    have heq := place.text_eq.symm.trans next.text_eq
    rw [hbefore] at heq
    simpa using heq
  have hgap : place.gap = between := by
    rw [WordPlace.gap, hafter]
    exact takeWhile_append_of_startsAtWord hbetween (next.isWhole.isWord.startsAtWord _)
  have hlater : wordsText later = name ++ next.after := by
    have heq := place.text_eq.symm.trans h.text_eq_words
    rw [h.before_eq, hafter, wordsText_append, wordsText_cons, hgap] at heq
    simpa using heq.symm
  obtain ⟨earlier', w, later', rfl, rfl, hnil⟩ :=
    h.cut.back.tail.exists_word (hlater.trans (List.nil_append _).symm)
      (by simpa using next.isWhole)
  obtain rfl := (h.cut.back.tail.front).eq_nil_of_wordsText hnil.symm
  exact ⟨hgap, w, later', rfl, rfl⟩

/-- **Locals, as the text shows them.** -/
theorem isLocalAfter_iff_nextToKeyword {start text : List Char} {words : List ScriptWord}
    (hstart : ∀ c ∈ start, isWordStart c = false) (h : CutFrom text words) (name : List Char) :
    IsLocalAfter words name ↔ ∃ between, NextToKeyword (start ++ text) name between := by
  constructor
  · rintro ⟨before, declared, later, hwords, ⟨keyword, hkeyword, hmem⟩, rfl⟩
    obtain ⟨before, rfl⟩ := List.getLast?_eq_some_iff.mp hkeyword
    have hsplit : (splitWords (start ++ text)).2 = before ++ [keyword] ++ declared :: later := by
      rw [splitWords_append hstart h, hwords]
    have hsplit' : (splitWords (start ++ text)).2 = before ++ keyword :: declared :: later := by
      rw [hsplit, List.append_assoc, List.singleton_append]
    refine ⟨keyword.gap, keyword.word, .ofSplit hsplit', .ofSplit hsplit, hmem, ?_, ?_⟩
    · simp [WordPlace.ofSplit]
    · rw [hwords, List.append_assoc] at h
      exact h.back.wordless_gap
  · rintro ⟨between, keyword, place, next, hmem, hbefore, hbetween⟩
    obtain ⟨start', earlier, later, hcut⟩ := place.exists_isCutAt
    -- the cut around the keyword is the cut of the text
    obtain ⟨rfl, rfl⟩ := Prod.mk.inj ((splitWords_append hstart h).symm.trans hcut.splitWords_eq)
    obtain ⟨-, w, later', rfl, rfl⟩ := hcut.next_word next hbefore hbetween
    refine ⟨earlier ++ [⟨keyword, place.gap⟩], w, later', by simp, ?_, rfl⟩
    exact (declaresNext_append_singleton _ _).mpr hmem

/-- A local is declared by the word before the place, or was declared before. -/
theorem WordPlace.IsCutAt.isLocal_iff {text word start : List Char} {place : WordPlace text word}
    {earlier later : List ScriptWord} (h : place.IsCutAt start earlier later) :
    place.IsLocal ↔ IsLocalAfter earlier word ∨ DeclaresNext earlier := by
  have hword : CutFrom (word ++ ([] ++ [])) [⟨word, []⟩] :=
    .cons place.isWhole.isWord (lacks_nil _) (List.forall_mem_nil _) .nil
  have hcut := h.cut.exchange hword nofun
  have hlocal := isLocalAfter_iff_nextToKeyword h.wordless hcut word
  rw [isLocalAfter_append_singleton, List.nil_append, List.append_nil, ← List.append_assoc,
    ← h.before_eq] at hlocal
  rw [WordPlace.IsLocal, ← hlocal]
  simp

/-! ## What is written at a place -/

/-- What is known after some words. -/
def WordContext.after (context : WordContext) (words : List ScriptWord) : WordContext :=
  words.foldl WordContext.next context

namespace WordContext

theorem Follows.after {context : WordContext} {earlier : List ScriptWord}
    (h : context.Follows earlier) (words : List ScriptWord) :
    (context.after words).Follows (earlier ++ words) := by
  induction words generalizing context earlier with
  | nil => rwa [List.append_nil]
  | cons w words ih =>
    have hnext := ih (h.next w)
    rwa [List.append_assoc, List.singleton_append] at hnext

/-- The character before a word is the last one of the text before it. -/
theorem before_after {text : List Char} {earlier later : List ScriptWord}
    (h : CutFrom text (earlier ++ later)) (hlater : later ≠ []) (start : List Char) :
    (WordContext.after { before := start.getLast? } earlier).before =
      (start ++ wordsText earlier).getLast? := by
  rcases List.eq_nil_or_concat earlier with rfl | ⟨earlier, w, rfl⟩
  · rw [wordsText_nil, List.append_nil]
    rfl
  · rw [List.concat_eq_append, List.append_assoc] at h
    have hgap : w.gap ≠ [] := h.back.gap_ne_nil hlater
    rw [List.concat_eq_append, WordContext.after, List.foldl_append, wordsText_append,
      wordsText_cons, wordsText_nil, List.append_nil, ← List.append_assoc, ← List.append_assoc,
      List.getLast?_append_of_ne_nil _ hgap]
    rfl

end WordContext

/-- **Locals, as they are kept along a text.** -/
theorem mem_locals_iff_nextToKeyword (text name : List Char) :
    String.ofList name ∈ (WordContext.after { before := (splitWords text).1.getLast? }
      (splitWords text).2).locals ↔ ∃ between, NextToKeyword text name between := by
  have hstart : ∀ c ∈ (splitWords text).1, isWordStart c = false :=
    fun c hc => isWordStart_of_mem_takeWhile hc
  have hlocal := isLocalAfter_iff_nextToKeyword hstart (cutFrom_splitWords text) name
  rw [show (splitWords text).1 ++ text.dropWhile (!isWordStart ·) = text from
    List.takeWhile_append_dropWhile] at hlocal
  rw [← hlocal]
  exact ((WordContext.follows_nil _).after (splitWords text).2).locals name

/-- The gap after a word with `state.` in front: the white space before the `=` of an assignment
becomes one space. -/
def spaced (gap : List Char) : List Char :=
  match assignment? gap with
  | some value => " =".toList ++ value
  | none => gap

namespace Qualifier

variable (q : Qualifier)

theorem qualifyWords_append (context : WordContext) (words more : List ScriptWord) :
    q.qualifyWords context (words ++ more) =
      q.qualifyWords context words ++ q.qualifyWords (context.after words) more := by
  induction words generalizing context with
  | nil => rfl
  | cons w words ih =>
    rw [List.cons_append, qualifyWords, qualifyWords, ih, List.append_assoc]
    rfl

theorem qualifyWord_of_qualifies {context : WordContext} {w : ScriptWord}
    (h : q.qualifies context w = true) :
    q.qualifyWord context w = "state.".toList ++ (w.word ++ spaced w.gap) := by
  rw [qualifyWord, if_pos h, List.append_assoc]
  rfl

theorem qualifyWord_of_not_qualifies {context : WordContext} {w : ScriptWord}
    (h : ¬ q.qualifies context w = true) : q.qualifyWord context w = w.word ++ w.gap := by
  rw [qualifyWord, if_neg h]

/-- The characters of the qualified text. -/
def qualified (text : List Char) : List Char :=
  (q.qualify (String.ofList text)).toList

theorem qualified_of_cut {start text : List Char} {words : List ScriptWord}
    (hstart : ∀ c ∈ start, isWordStart c = false) (h : CutFrom text words) :
    q.qualified (start ++ text) =
      start ++ q.qualifyWords { before := start.getLast? } words := by
  rw [qualified, qualify, String.toList_ofList, String.toList_ofList, splitWords_append hstart h]

section Places

variable {text word : List Char}

/-- At a place `piece` is written for the word and the gap after it.  It comes right after what is
written for the text before the word, and the rest of the qualified text follows it. -/
structure Writes (place : WordPlace text word) (piece : List Char) : Prop where
  here : q.qualified (place.before ++ (word ++ place.gap)) = q.qualified place.before ++ piece
  goes_on : q.qualified place.before ++ piece <+: q.qualified text

/-- The word at a place is written as it stands. -/
def Keeps (place : WordPlace text word) : Prop :=
  q.Writes place (word ++ place.gap)

/-- The word at a place gets `state.` in front. -/
def PutsState (place : WordPlace text word) : Prop :=
  q.Writes place ("state.".toList ++ (word ++ spaced place.gap))

variable {q} in
theorem Writes.unique {place : WordPlace text word} {piece piece' : List Char}
    (h : q.Writes place piece) (h' : q.Writes place piece') : piece = piece' :=
  List.append_cancel_left (h.here.symm.trans h'.here)

/-- **What is written at a place** is decided by the words before it and the gap after it. -/
theorem writes_qualifyWord {place : WordPlace text word} {start : List Char}
    {earlier later : List ScriptWord} (h : place.IsCutAt start earlier later) :
    q.Writes place (q.qualifyWord (WordContext.after { before := start.getLast? } earlier)
      ⟨word, place.gap⟩) := by
  have hcut := h.cut
  rw [List.append_cons] at hcut
  have hhere : place.before ++ (word ++ place.gap) =
      start ++ wordsText (earlier ++ [⟨word, place.gap⟩]) := by
    rw [h.before_eq, wordsText_append, wordsText_cons, wordsText_nil, List.append_nil,
      List.append_assoc]
  have hwords : q.qualifyWords { before := start.getLast? } (earlier ++ [⟨word, place.gap⟩]) =
      q.qualifyWords { before := start.getLast? } earlier ++
        q.qualifyWord (WordContext.after { before := start.getLast? } earlier)
          ⟨word, place.gap⟩ := by
    rw [qualifyWords_append, qualifyWords, qualifyWords, List.append_nil]
  have hall : q.qualified text = start ++ q.qualifyWords { before := start.getLast? }
      (earlier ++ [⟨word, place.gap⟩] ++ later) := by
    rw [← q.qualified_of_cut h.wordless hcut, ← List.append_cons, ← h.text_eq_words]
  rw [q.qualifyWords_append _ (earlier ++ [_]) later, ← List.append_assoc] at hall
  constructor
  · rw [hhere, q.qualified_of_cut h.wordless hcut.front, hwords, h.before_eq,
      q.qualified_of_cut h.wordless h.cut.front, List.append_assoc]
  · rw [h.before_eq, q.qualified_of_cut h.wordless h.cut.front, List.append_assoc, ← hwords, hall]
    exact List.prefix_append _ _

/-- With `state.` in front a word and its gap are not as they stand: no word holds a point, and no gap
holds a word. -/
theorem append_ne_state_append {gap : List Char} (hword : IsScriptWord word)
    (hgap : ∀ c ∈ gap, isWordStart c = false) (rest : List Char) :
    word ++ gap ≠ "state.".toList ++ (word ++ rest) := by
  intro h
  rcases List.append_eq_append_iff.mp h with ⟨more, -, hmore⟩ | ⟨more, hmore, -⟩
  · obtain ⟨c, cs, rfl⟩ := List.exists_cons_of_ne_nil hword.ne_nil
    have hc := hgap c (by rw [hmore]; simp)
    rw [hword.1] at hc
    cases hc
  · have hpoint := hword.isWordChar '.' (by rw [hmore]; simp)
    cases hpoint

section Cut

variable {place : WordPlace text word} {start : List Char} {earlier later : List ScriptWord}
  (h : place.IsCutAt start earlier later)
include h

theorem putsState_iff_qualifies :
    q.PutsState place ↔ q.qualifies (WordContext.after { before := start.getLast? } earlier)
      ⟨word, place.gap⟩ = true := by
  have hwrites := q.writes_qualifyWord h
  constructor
  · intro hputs
    by_contra hq
    rw [q.qualifyWord_of_not_qualifies hq] at hwrites
    exact append_ne_state_append place.isWhole.isWord place.wordless_gap _
      (hwrites.unique hputs)
  · intro hq
    rwa [q.qualifyWord_of_qualifies hq] at hwrites

theorem keeps_iff_not_qualifies :
    q.Keeps place ↔ ¬ q.qualifies (WordContext.after { before := start.getLast? } earlier)
      ⟨word, place.gap⟩ = true := by
  have hwrites := q.writes_qualifyWord h
  constructor
  · intro hkeeps hq
    rw [q.qualifyWord_of_qualifies hq] at hwrites
    exact append_ne_state_append place.isWhole.isWord place.wordless_gap _
      (hkeeps.unique hwrites)
  · intro hq
    rwa [q.qualifyWord_of_not_qualifies hq] at hwrites

end Cut

variable (place : WordPlace text word)

/-- **A word that does not get `state.` in front is written as it stands.** -/
theorem keeps_iff : q.Keeps place ↔ ¬ q.PutsState place := by
  obtain ⟨start, earlier, later, h⟩ := place.exists_isCutAt
  rw [q.keeps_iff_not_qualifies h, q.putsState_iff_qualifies h]

/-- **The words that get `state.` in front**: those that are neither excluded nor locals, follow no
point and no digit, and are known or assigned to. -/
theorem putsState_iff :
    q.PutsState place ↔ String.ofList word ∉ q.excluded ∧ ¬ place.IsLocal ∧
      (∀ c ∈ place.before.getLast?, c ≠ '.' ∧ c.isDigit = false) ∧
      (String.ofList word ∈ q.names ∨ q.assignments = true ∧ ∃ value, Assigns place.after value) := by
  obtain ⟨start, earlier, later, h⟩ := place.exists_isCutAt
  have hfollows := (WordContext.follows_nil start.getLast?).after earlier
  have hbefore := WordContext.before_after h.cut (by simp) start
  rw [← h.before_eq] at hbefore
  rw [q.putsState_iff_qualifies h, q.qualifies_iff hfollows hbefore, h.isLocal_iff, not_or,
    ← place.exists_assigns_iff]
  constructor
  · intro hprefixes
    exact ⟨hprefixes.not_excluded, ⟨hprefixes.not_local, hprefixes.not_declared⟩,
      hprefixes.not_member, hprefixes.known⟩
  · rintro ⟨hexcluded, ⟨hlocal, hdeclared⟩, hmember, hknown⟩
    exact ⟨hexcluded, hdeclared, hlocal, hmember, hknown⟩

end Places

end Qualifier

end UiLang
