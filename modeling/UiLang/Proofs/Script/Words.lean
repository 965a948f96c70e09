import UiLang.Proofs.Scan.Words
import UiLang.Script.Qualify

/-!
# The words of a script text

Names in script bodies are looked for as whole words.  A whole word of a text is an occurrence of a
word that no longer word contains: it goes on neither to the left nor to the right.  A digit can stand
right in front of one, as in `12px`, since no word starts with a digit.

Cutting a text from the front, word by word, finds exactly its whole words.

## Main definitions

* `IsScriptWord`, `IsWholeWord`: words, and where they stand as a whole
* `wordsText`: the text of words with their gaps
* `IsCut`: a text as its whole words and the gaps around them
* `CutFrom`: a cut that is made from the front, word by word

## Main results

* `CutFrom.isWholeWord`, `CutFrom.exists_word`: the words of a cut are whole, and all of them
* `isCut_splitWords`: every text is cut into its whole words
-/

namespace UiLang

/-! ## Whole words -/

/-- A word: a letter, an underscore or a dollar sign, and then any of these and digits. -/
def IsScriptWord : List Char → Prop
  | [] => False
  | c :: cs => isWordStart c = true ∧ ∀ d ∈ cs, isWordChar d = true

/-- The word between `before` and `after` is no part of a longer word. -/
structure IsWholeWord (before word after : List Char) : Prop where
  isWord : IsScriptWord word
  left : ∀ rest more, before = rest ++ more → IsScriptWord (more ++ word) → more = []
  right : ∀ more rest, after = more ++ rest → IsScriptWord (word ++ more) → more = []

theorem isWordChar_of_isWordStart {c : Char} (h : isWordStart c = true) : isWordChar c = true := by
  unfold isWordStart at h
  unfold isWordChar Char.isAlphanum
  simp only [Bool.or_eq_true] at h ⊢
  tauto

section Words

variable {word more : List Char}

theorem IsScriptWord.ne_nil (h : IsScriptWord word) : word ≠ [] := by
  rintro rfl
  exact h

theorem IsScriptWord.isWordChar (h : IsScriptWord word) : ∀ c ∈ word, isWordChar c = true := by
  cases word with
  | nil => exact List.forall_mem_nil _
  | cons c cs => exact List.forall_mem_cons.mpr ⟨isWordChar_of_isWordStart h.1, h.2⟩

/-- A word goes on with any characters that may continue a word. -/
theorem IsScriptWord.append (h : IsScriptWord word) (hmore : ∀ c ∈ more, UiLang.isWordChar c = true) :
    IsScriptWord (word ++ more) := by
  cases word with
  | nil => exact h.elim
  | cons c cs => exact ⟨h.1, List.forall_mem_append.mpr ⟨h.2, hmore⟩⟩

/-- What a word starts with is a word, if it is anything. -/
theorem IsScriptWord.of_append (h : IsScriptWord (word ++ more)) (hword : word ≠ []) :
    IsScriptWord word := by
  cases word with
  | nil => exact absurd rfl hword
  | cons c cs => exact ⟨h.1, fun d hd => h.2 d (List.mem_append_left more hd)⟩

/-- A word is whole on the right exactly if no character follows that would continue it. -/
theorem IsScriptWord.eq_nil_of_lacks {after rest : List Char} (hafter : Lacks UiLang.isWordChar after)
    (heq : after = more ++ rest) (h : IsScriptWord (word ++ more)) : more = [] := by
  cases more with
  | nil => rfl
  | cons c cs =>
    rw [heq, List.cons_append, lacks_cons] at hafter
    have hc := h.isWordChar c (List.mem_append_right word List.mem_cons_self)
    rw [hafter] at hc
    cases hc

end Words

/-! ## Cuts -/

/-- The characters of a word with the gap after it. -/
def ScriptWord.chars (w : ScriptWord) : List Char :=
  w.word ++ w.gap

/-- The text of words with the gaps after them. -/
def wordsText (words : List ScriptWord) : List Char :=
  words.flatMap ScriptWord.chars

@[simp] theorem wordsText_nil : wordsText [] = [] := rfl

@[simp] theorem wordsText_cons (w : ScriptWord) (words : List ScriptWord) :
    wordsText (w :: words) = w.word ++ (w.gap ++ wordsText words) := by
  simp [wordsText, ScriptWord.chars]

@[simp] theorem wordsText_append (words more : List ScriptWord) :
    wordsText (words ++ more) = wordsText words ++ wordsText more :=
  List.flatMap_append

/-- A text as the gap before its first word, and its whole words with the gaps after them: each of
the words is whole where it stands, and every whole word of the text is one of them. -/
structure IsCut (text gap : List Char) (words : List ScriptWord) : Prop where
  whole : text = gap ++ wordsText words
  isWholeWord : ∀ earlier w later, words = earlier ++ w :: later →
    IsWholeWord (gap ++ wordsText earlier) w.word (w.gap ++ wordsText later)
  exists_word : ∀ before word after, text = before ++ (word ++ after) →
    IsWholeWord before word after →
      ∃ earlier w later, words = earlier ++ w :: later ∧ w.word = word ∧
        before = gap ++ wordsText earlier

/-- A cut from the front of a text that starts with a word, one word with its gap at a time. -/
inductive CutFrom : List Char → List ScriptWord → Prop
  | nil : CutFrom [] []
  | cons {word gap text : List Char} {words : List ScriptWord} (isWord : IsScriptWord word)
      (ends : Lacks isWordChar (gap ++ text)) (wordless : ∀ c ∈ gap, isWordStart c = false)
      (rest : CutFrom text words) : CutFrom (word ++ (gap ++ text)) (⟨word, gap⟩ :: words)

/-- A run of characters of one class ends where none of them follows. -/
theorem lacks_dropWhile (p : Char → Bool) (cs : List Char) : Lacks p (cs.dropWhile p) := by
  intro c hc
  have hne : cs.dropWhile p ≠ [] := by
    intro hnil
    rw [hnil] at hc
    cases hc
  rw [List.head?_eq_some_head hne] at hc
  cases hc
  simpa using List.head_dropWhile_not p hne

/-- A text that is empty, or starts with a word. -/
def StartsAtWord (cs : List Char) : Prop :=
  Lacks (!isWordStart ·) cs

theorem isWordStart_of_mem_takeWhile {cs : List Char} {c : Char}
    (h : c ∈ cs.takeWhile (!isWordStart ·)) : isWordStart c = false := by
  simpa using List.mem_takeWhile_imp h

/-- Words are cut from the front. -/
theorem cutFrom_wordsFrom (cs : List Char) (h : StartsAtWord cs) : CutFrom cs (wordsFrom cs) := by
  fun_induction wordsFrom cs with
  | case1 => exact .nil
  | case2 c rest after ih =>
    have hc : isWordStart c = true := by simpa using lacks_cons.mp h
    have hrest := ih (lacks_dropWhile _ after)
    have hword : IsScriptWord (c :: rest.takeWhile isWordChar) :=
      ⟨hc, fun d hd => List.mem_takeWhile_imp hd⟩
    have hends : Lacks isWordChar (after.takeWhile (!isWordStart ·) ++
        after.dropWhile (!isWordStart ·)) := by
      rw [List.takeWhile_append_dropWhile]
      exact lacks_dropWhile isWordChar rest
    have hcut := CutFrom.cons hword hends (fun d hd => isWordStart_of_mem_takeWhile hd) hrest
    rwa [List.takeWhile_append_dropWhile, List.cons_append, List.takeWhile_append_dropWhile]
      at hcut

namespace CutFrom

variable {text : List Char} {words : List ScriptWord}

theorem eq_wordsText (h : CutFrom text words) : text = wordsText words := by
  induction h with
  | nil => rfl
  | cons isWord ends wordless rest ih => rw [wordsText_cons, ← ih]

/-- A text with words in it starts with one. -/
theorem exists_cons (h : CutFrom text words) (hwords : words ≠ []) :
    ∃ c cs, text = c :: cs ∧ isWordStart c = true := by
  cases h with
  | nil => exact absurd rfl hwords
  | @cons word gap text words isWord ends wordless rest =>
    cases word with
    | nil => exact isWord.elim
    | cons c cs => exact ⟨c, cs ++ (gap ++ text), rfl, isWord.1⟩

/-- A word that another one follows is parted from it by a gap, which no word goes on with. -/
theorem gap_parts {gap : List Char} (h : CutFrom text words) (hwords : words ≠ [])
    (ends : Lacks isWordChar (gap ++ text)) : gap ≠ [] ∧ Lacks isWordChar gap := by
  cases gap with
  | nil =>
    obtain ⟨c, cs, rfl, hc⟩ := h.exists_cons hwords
    have hchar : isWordChar c = false := lacks_cons.mp ends
    rw [isWordChar_of_isWordStart hc] at hchar
    cases hchar
  | cons c gap => exact ⟨by simp, lacks_cons.mpr (lacks_cons.mp ends)⟩

end CutFrom

/-- No word ends where the text does. -/
def EndsNoWord (text : List Char) : Prop :=
  ∀ rest more, text = rest ++ more → ¬ IsScriptWord more

theorem endsNoWord_of_wordless {gap : List Char} (h : ∀ c ∈ gap, isWordStart c = false) :
    EndsNoWord gap := by
  rintro rest (_ | ⟨c, more⟩) rfl hword
  · exact hword
  · have hc := h c (List.mem_append_right rest List.mem_cons_self)
    rw [hword.1] at hc
    cases hc

/-- No word ends after a gap: its first character belongs to none, and no other one starts one. -/
theorem endsNoWord_append {gap : List Char} (front : List Char) (hgap : gap ≠ [])
    (hends : Lacks isWordChar gap) (hwordless : ∀ c ∈ gap, isWordStart c = false) :
    EndsNoWord (front ++ gap) := by
  intro rest more heq hword
  rcases List.append_eq_append_iff.mp heq with ⟨inner, -, hmore⟩ | ⟨inner, -, hmore⟩
  · -- the word would start inside the gap
    exact endsNoWord_of_wordless hwordless inner more hmore hword
  · -- the word would contain the whole gap
    cases gap with
    | nil => exact hgap rfl
    | cons c gap =>
      have hc := hword.isWordChar c (by rw [hmore]; simp)
      rw [lacks_cons.mp hends] at hc
      cases hc

/-- A word does not start inside a gap. -/
theorem exists_append_of_wordless {gap text before word after : List Char}
    (hgap : ∀ c ∈ gap, isWordStart c = false) (hword : IsScriptWord word)
    (h : gap ++ text = before ++ (word ++ after)) :
    ∃ more, before = gap ++ more ∧ text = more ++ (word ++ after) := by
  rcases List.append_eq_append_iff.mp h with ⟨more, hbefore, htext⟩ | ⟨more, hmore, htext⟩
  · exact ⟨more, hbefore, htext⟩
  · cases more with
    | nil => exact ⟨[], by rw [hmore, List.append_nil, List.append_nil], htext.symm⟩
    | cons c more =>
      cases word with
      | nil => exact hword.elim
      | cons d word =>
        obtain rfl : d = c := (List.cons.inj htext).1
        have hd := hgap d (by rw [hmore]; simp)
        rw [hword.1] at hd
        cases hd

namespace CutFrom

variable {text : List Char} {words : List ScriptWord}

/-- **The words of a cut are whole**, if no word ends where the cut starts.  The induction is on the
cut; what is known of the text in front is that no word ends there. -/
theorem isWholeWord (h : CutFrom text words) {front : List Char} (hfront : EndsNoWord front)
    {earlier later : List ScriptWord} {w : ScriptWord} (hw : words = earlier ++ w :: later) :
    IsWholeWord (front ++ wordsText earlier) w.word (w.gap ++ wordsText later) := by
  induction h generalizing front earlier with
  | nil => simp at hw
  | @cons word gap text words isWord ends wordless rest ih =>
    cases earlier with
    | nil =>
      obtain ⟨rfl, rfl⟩ := List.cons.inj hw
      rw [rest.eq_wordsText] at ends
      rw [wordsText_nil, List.append_nil]
      refine ⟨isWord, ?_, fun more after heq => IsScriptWord.eq_nil_of_lacks ends heq⟩
      intro before more heq hmore
      by_contra hne
      exact hfront before more heq (hmore.of_append hne)
    | cons first earlier =>
      obtain ⟨rfl, rfl⟩ := List.cons.inj hw
      obtain ⟨hgap, hlacks⟩ := rest.gap_parts (by simp) ends
      have hnext := ih (endsNoWord_append (front ++ word) hgap hlacks wordless) rfl
      simpa only [wordsText_cons, List.append_assoc] using hnext

/-- **Every whole word is a word of the cut**: it can start neither inside a gap nor inside a
word. -/
theorem exists_word (h : CutFrom text words) {front before word after : List Char}
    (heq : text = before ++ (word ++ after)) (hwhole : IsWholeWord (front ++ before) word after) :
    ∃ earlier w later, words = earlier ++ w :: later ∧ w.word = word ∧
      before = wordsText earlier := by
  induction h generalizing front before with
  | nil =>
    have hword := hwhole.isWord.ne_nil
    simp_all
  | @cons first gap text words isWord ends wordless rest ih =>
    -- past the first word of the cut it stands past its gap as well
    have hlater : ∀ inner, before = first ++ inner → gap ++ text = inner ++ (word ++ after) →
        ∃ earlier w later, ⟨first, gap⟩ :: words = earlier ++ w :: later ∧ w.word = word ∧
          before = wordsText earlier := by
      intro inner hbefore hinner
      obtain ⟨more, rfl, htext⟩ := exists_append_of_wordless wordless hwhole.isWord hinner
      rw [hbefore, ← List.append_assoc, ← List.append_assoc] at hwhole
      obtain ⟨earlier, w, later, rfl, hword, hmore⟩ := ih htext hwhole
      refine ⟨⟨first, gap⟩ :: earlier, w, later, rfl, hword, ?_⟩
      rw [hbefore, wordsText_cons, hmore]
    rcases List.append_eq_append_iff.mp heq with ⟨inner, hbefore, hinner⟩ | ⟨inner, hfirst, hinner⟩
    · exact hlater inner hbefore hinner
    · cases inner with
      | nil => exact hlater [] (by rw [hfirst, List.append_nil, List.append_nil]) hinner.symm
      | cons c inner =>
        -- it starts inside the first word, and so with it, as it is whole
        obtain rfl : before = [] := by
          by_contra hne
          have hbefore : IsScriptWord before := IsScriptWord.of_append (hfirst ▸ isWord) hne
          exact hne (hwhole.left front before rfl (hbefore.append hwhole.isWord.isWordChar))
        refine ⟨[], ⟨first, gap⟩, words, rfl, ?_, rfl⟩
        rw [List.nil_append] at heq
        rcases List.append_eq_append_iff.mp heq with ⟨more, hword, hgap⟩ | ⟨more, hmore, hafter⟩
        · have hnil := IsScriptWord.eq_nil_of_lacks ends hgap (hword ▸ hwhole.isWord)
          rw [hword, hnil, List.append_nil]
        · have hnil := hwhole.right more _ hafter (hmore ▸ isWord)
          rw [hmore, hnil, List.append_nil]

end CutFrom

theorem cutFrom_splitWords (cs : List Char) :
    CutFrom (cs.dropWhile (!isWordStart ·)) (splitWords cs).2 :=
  cutFrom_wordsFrom _ (lacks_dropWhile _ cs)

/-- **Every text is cut into its whole words.** -/
theorem isCut_splitWords (cs : List Char) : IsCut cs (splitWords cs).1 (splitWords cs).2 := by
  have hwordless : ∀ c ∈ (splitWords cs).1, isWordStart c = false :=
    fun c hc => isWordStart_of_mem_takeWhile hc
  have hcut := cutFrom_splitWords cs
  have hwhole : cs = (splitWords cs).1 ++ cs.dropWhile (!isWordStart ·) :=
    List.takeWhile_append_dropWhile.symm
  refine ⟨?_, ?_, ?_⟩
  · rw [← hcut.eq_wordsText]
    exact hwhole
  · intro earlier w later hw
    exact hcut.isWholeWord (endsNoWord_of_wordless hwordless) hw
  · intro before word after heq hword
    obtain ⟨more, rfl, htext⟩ :=
      exists_append_of_wordless hwordless hword.isWord (hwhole.symm.trans heq)
    obtain ⟨earlier, w, later, hw, hsame, rfl⟩ := hcut.exists_word htext hword
    exact ⟨earlier, w, later, hw, hsame, rfl⟩

end UiLang
