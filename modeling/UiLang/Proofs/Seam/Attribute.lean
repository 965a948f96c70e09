import UiLang.Proofs.Seam.State

/-!
# Attributes across a seam

Values of attributes stay on their line.  A block of entries goes over line ends, and takes
reserved words and dashed names as keys: past the seam the word that starts an item is such a key,
but neither a dash nor a colon follows it.

## Main results

* `Seam.readEntries_firm`: blocks of entries, for any reader of their values
* `Seam.readAttributes_firm`
-/

namespace UiLang.Seam

variable {S : Seam} {ts ts' : List Token}

theorem invalidAttribute_moved {α : Type} {f : α → α} (name : String) (t : Token) :
    S.Firm f (invalidAttribute name t : Read α ts)
      (invalidAttribute name (S.move.token t) : Read α ts') :=
  .error (S.move.moved_ofToken (.invalidAttributeValue name) t)

/-! ## Values on one line -/

theorem readCallAfter_firm (path : Path) (h : S.Sync ts ts') :
    S.Firm id (readCallAfter S.stop path ts) (readCallAfter S.stop' path ts') := by
  cases h.front with
  | token t ts ts' rest =>
    rw [readCallAfter, readCallAfter, Relocation.token_kind]
    split
    · refine (parenthesizedTokens_firm 0 rest).bind fun inside inside' value rest => .ok ?_ rest
      change AttributeValue.call path (RawText.arguments inside'.value) = _
      rw [value, S.move.arguments_map]
      rfl
    · exact .ok rfl h
  | shut same nil => exact .ok rfl h
  | opened newline more kind eof tail =>
    rw [readCallAfter, readCallAfter, if_neg (by simp [kind])]
    exact .ok rfl h

theorem readAttributeValue_firm (name : String) (h : S.Sync ts ts') :
    S.Firm id (readAttributeValue S.stop name ts) (readAttributeValue S.stop' name ts') := by
  cases h.front with
  | token t ts ts' rest =>
    rw [readAttributeValue, readAttributeValue, Relocation.token_kind]
    split
    · exact .ok rfl rest
    · exact .ok rfl rest
    · rcases readNegated?_matched rest with ⟨hnone, hnone'⟩ | ⟨r, r', hr, hr', value, rest⟩
      · rw [hnone, hnone']
        exact invalidAttribute_moved name t
      · rw [hr, hr']
        exact .ok (congrArg AttributeValue.number value) rest
    · exact .ok rfl rest
    · exact .ok rfl rest
    · obtain ⟨value, rest⟩ := readPathAfter_matched (S.move.token_text t) rest
      dsimp only
      rw [value]
      exact (readCallAfter_firm _ rest).bind fun _ _ value rest => .ok value rest
    · exact invalidAttribute_moved name t
  | shut same nil =>
    rw [readAttributeValue, readAttributeValue, same]
    exact invalidAttribute_moved name S.stop
  | opened newline more kind eof tail =>
    -- no value at the end of the first stream, and none at the newline of the second
    rw [readAttributeValue, readAttributeValue, kind]
    exact firm_of_errors (by simp [tail])

theorem readShorthandValue_firm (name : String) (h : S.Sync ts ts') :
    S.Firm id (readShorthandValue S.stop name ts) (readShorthandValue S.stop' name ts') := by
  cases h.front with
  | token t ts ts' rest =>
    rw [readShorthandValue, readShorthandValue, Relocation.token_kind]
    split
    · exact .ok rfl rest
    · exact .ok rfl rest
    · rcases readNegated?_matched rest with ⟨hnone, hnone'⟩ | ⟨r, r', hr, hr', value, rest⟩
      · rw [hnone, hnone']
        exact invalidAttribute_moved name t
      · rw [hr, hr']
        exact .ok value rest
    · exact invalidAttribute_moved name t
  | shut same nil =>
    rw [readShorthandValue, readShorthandValue, same]
    exact invalidAttribute_moved name S.stop
  | opened newline more kind eof tail =>
    rw [readShorthandValue, readShorthandValue, kind]
    exact firm_of_errors (by simp [tail])

/-! ## Entries -/

theorem readDashedAfter_of_ne_minus (name : String) {ts : List Token}
    (h : ∀ t ∈ ts.head?, t.kind ≠ .minus) : readDashedAfter name ts = .nothing name ts := by
  rcases ts with _ | ⟨dash, _ | ⟨word, rest⟩⟩
  · rfl
  · rfl
  · rw [readDashedAfter, if_neg fun hboth => h dash rfl hboth.1]

theorem readDashedAfter_of_not_isWord (name : String) (dash : Token) {ts : List Token}
    (h : ∀ t ∈ ts.head?, t.kind.isWord = false) :
    readDashedAfter name (dash :: ts) = .nothing name (dash :: ts) := by
  rcases ts with _ | ⟨word, rest⟩
  · rfl
  · rw [readDashedAfter, if_neg fun hboth => by simp [h word rfl] at hboth]

theorem readDashedAfter_matched (name : String) (h : S.Sync ts ts') :
    S.Matched id (readDashedAfter name ts) (readDashedAfter name ts') := by
  fun_induction readDashedAfter name ts generalizing ts' with
  | case1 name =>
    rw [readDashedAfter_of_ne_minus name fun t ht => by simp [h.head_of_nil t ht]]
    exact ⟨rfl, h⟩
  | case2 name dash =>
    obtain ⟨_, rfl, rest⟩ := h.uncons
    rw [readDashedAfter_of_not_isWord name _ rest.not_isWord_of_nil]
    exact ⟨rfl, h⟩
  | case3 name dash word rest hboth ih =>
    obtain ⟨_, rfl, hrest⟩ := h.uncons
    obtain ⟨_, rfl, hafter⟩ := hrest.uncons
    obtain ⟨value, rest⟩ := ih hafter
    rw [readDashedAfter, Relocation.token_kind, Relocation.token_kind, if_pos hboth]
    exact ⟨value, rest⟩
  | case4 name dash word rest hboth =>
    obtain ⟨_, rfl, hrest⟩ := h.uncons
    obtain ⟨_, rfl, hafter⟩ := hrest.uncons
    rw [readDashedAfter, Relocation.token_kind, Relocation.token_kind, if_neg hboth]
    exact ⟨rfl, h⟩

/-- The tokens of a style value are the same in both streams, since a newline ends it. -/
theorem styleValue_matched (h : S.Sync ts ts') :
    ts'.takeWhile (fun t => !endsStyleValue t) =
        (ts.takeWhile fun t => !endsStyleValue t).map S.move.token ∧
      S.Sync (ts.dropWhile fun t => !endsStyleValue t)
        (ts'.dropWhile fun t => !endsStyleValue t) := by
  induction ts generalizing ts' with
  | nil =>
    cases h.front with
    | shut same nil => exact ⟨rfl, h⟩
    | opened newline more kind eof tail =>
      -- the value ends at the newline of the tail, as it ends with the first stream
      have hends : endsStyleValue newline = true := by rw [endsStyleValue, kind]
      rw [List.takeWhile_cons, List.dropWhile_cons, hends]
      exact ⟨rfl, h⟩
  | cons t ts ih =>
    obtain ⟨ts', rfl, rest⟩ := h.uncons
    have hends : endsStyleValue (S.move.token t) = endsStyleValue t := rfl
    rw [List.takeWhile_cons, List.takeWhile_cons, List.dropWhile_cons, List.dropWhile_cons, hends]
    split
    · obtain ⟨htake, hdrop⟩ := ih rest
      rw [htake]
      exact ⟨rfl, hdrop⟩
    · exact ⟨rfl, h⟩

theorem readStyleValue_firm (property : String) (h : S.Sync ts ts') :
    S.Firm id (readStyleValue S.stop property ts) (readStyleValue S.stop' property ts') := by
  obtain ⟨htake, hdrop⟩ := styleValue_matched h
  unfold readStyleValue
  rw [htake]
  -- an empty value is a fault at the next token; only a lone string is not joined as it stands
  rcases ts.takeWhile fun t => !endsStyleValue t with _ | ⟨⟨kind, text, loc⟩, tokens⟩
  · rcases peek_of_front hdrop with hpeek | ⟨htail, -, -⟩
    · dsimp only [List.map_nil]
      rw [hpeek]
      exact invalidAttribute_moved property _
    · exact firm_of_errors htail
  · refine .ok ?_ hdrop
    have hjoin := S.move.join_map (⟨kind, text, loc⟩ :: tokens)
    cases kind with
    | string =>
      cases tokens with
      | nil => rfl
      | cons next tokens => exact hjoin
    | _ => exact hjoin

variable {ν : Type} {us : List Token}

theorem readEntries_of_nil (stop : Token)
    (readValue : String → (ts : List Token) → Read ν ts) (known : OrderedMap String ν)
    (h : skipNewlines ts = []) :
    readEntries stop readValue known ts = expected .identifier stop := by
  rw [readEntries]
  split
  · rfl
  · simp_all

/-- The entries of a block, from the first token that is not a newline on. -/
theorem readEntries_of_cons (stop : Token)
    (readValue : String → (ts : List Token) → Read ν ts) (known : OrderedMap String ν)
    {first : Token} (h : skipNewlines ts = first :: us) :
    readEntries stop readValue known ts =
      if first.kind = .closing .brace then
        .ok (((Reading.nothing known us).cons first).within (h ▸ skipNewlines_suffix ts))
      else if first.kind.isWord ∨ first.kind = .string then
        let name := readDashedAfter first.text us
        expect stop .colon name.rest >>= fun colon =>
          readValue name.value colon.rest >>= fun value =>
            readEntries stop readValue (known.insert name.value value.value)
              (eat .comma value.rest).rest >>= fun entries =>
              .ok ((((name.andThen (colon.andThen value)).andThen
                ((eat .comma value.rest).andThen entries)).cons first).within
                  (h ▸ skipNewlines_suffix ts))
      else expected .identifier first := by
  rw [readEntries]
  split
  · simp_all
  · rename_i h'
    obtain ⟨rfl, rfl⟩ := List.cons.inj (h.symm.trans h')
    rfl

/-- A block of entries is read alike if their values are. -/
theorem readEntries_firm {readValue readValue' : String → (ts : List Token) → Read ν ts}
    (hvalue : ∀ name {ts ts' : List Token}, S.Sync ts ts' →
      S.Firm id (readValue name ts) (readValue' name ts'))
    (known : OrderedMap String ν) {ts ts' : List Token} (h : S.Sync ts ts') :
    S.Firm id (readEntries S.stop readValue known ts)
      (readEntries S.stop' readValue' known ts') := by
  obtain ⟨us, us', hus, hus', hle, hskip⟩ := h.skip
  cases hskip with
  | token first us us' kind rest =>
    rw [readEntries_of_cons S.stop readValue known hus,
      readEntries_of_cons S.stop' readValue' known hus', Relocation.token_kind]
    split
    · exact .ok rfl rest
    · split
      · have hname : S.Matched id (readDashedAfter first.text us)
            (readDashedAfter (S.move.token first).text us') := readDashedAfter_matched _ rest
        dsimp only
        rw [hname.value]
        refine (expect_firm (by simp) hname.rest).bind fun colon colon' _ rest => ?_
        refine (hvalue _ rest).bind fun value value' heq rest => ?_
        rw [heq]
        have hcomma : S.Matched id (eat .comma value.rest) (eat .comma value'.rest) :=
          eat_matched (by simp) rest
        exact (readEntries_firm hvalue _ hcomma.rest).bind fun _ _ value rest => .ok value rest
      · exact expected_moved _ _
  | shut same =>
    rw [readEntries_of_nil S.stop readValue known hus,
      readEntries_of_nil S.stop' readValue' known hus', same]
    exact expected_moved _ _
  | opened us' tail eof guard =>
    -- the word behind the newlines is taken for a key, and then the colon is missing
    rw [readEntries_of_nil S.stop readValue known hus]
    refine .ranOut tail fun hguard => ?_
    obtain ⟨first, rest, rfl, hstarts, hnext⟩ := (guard hguard).starts
    obtain ⟨d, hd⟩ := expect_error_of_ne S.stop' fun t ht => (hnext t ht).1
    rw [readEntries_of_cons S.stop' readValue' known hus', if_neg (ne_of_startsItem hstarts rfl),
      if_pos (.inl (isWord_of_startsItem hstarts)),
      readDashedAfter_of_ne_minus _ fun t ht => (hnext t ht).2]
    dsimp only [Reading.nothing]
    rw [hd]
    exact ⟨d, rfl⟩
termination_by ts.length
decreasing_by
  have := (((readDashedAfter first.text us).andThen (colon.andThen value)).andThen
    (eat .comma value.rest)).length_le
  rw [List.length_cons] at hle
  simp only [Reading.andThen] at this
  omega

theorem readStyleBlock_firm (h : S.Sync ts ts') :
    S.Firm id (readStyleBlock S.stop ts) (readStyleBlock S.stop' ts') :=
  (expect_firm (by simp) h).bind fun _ _ _ rest =>
    (readEntries_firm (fun property _ _ => readStyleValue_firm property) ∅ rest).bind
      fun _ _ value rest => .ok value rest

theorem readClassMap_firm (h : S.Sync ts ts') :
    S.Firm id (readClassMap S.stop ts) (readClassMap S.stop' ts') :=
  (expect_firm (by simp) h).bind fun _ _ _ rest =>
    (readEntries_firm (fun _ _ _ => readPath_firm) ∅ rest).bind
      fun _ _ value rest => .ok value rest

/-! ## Attribute lists -/

theorem readAttribute_firm (key : String) (head : ElementHead) (h : S.Sync ts ts') :
    S.Firm id (readAttribute S.stop key head ts) (readAttribute S.stop' key head ts') := by
  -- whether a block of classes follows is decided by the next token, and the same on both sides
  have hbrace : (peek S.stop' ts').kind = .opening .brace ↔
      (peek S.stop ts).kind = .opening .brace := by
    rcases peek_of_front h with hpeek | ⟨-, heof, hnewline⟩
    · rw [hpeek, Relocation.token_kind]
    · simp [heof, hnewline]
  unfold readAttribute
  simp only [hbrace]
  by_cases hstyle : key = "style"
  · rw [if_pos hstyle, if_pos hstyle]
    refine (readStyleBlock_firm h).bind fun block block' value rest => .ok ?_ rest
    exact congrArg (fun styles : Styles =>
      { head with styles := head.styles.insertAll styles.entries }) value
  rw [if_neg hstyle, if_neg hstyle]
  by_cases hclass : key = "class" ∧ (peek S.stop ts).kind = .opening .brace
  · rw [if_pos hclass, if_pos hclass]
    refine (readClassMap_firm h).bind fun classes classes' value rest => .ok ?_ rest
    exact congrArg (fun classes =>
      { head with attributes := head.attributes.insert "class" (.classMap classes) }) value
  rw [if_neg hclass, if_neg hclass]
  cases head.styleProperty? key with
  | some property =>
    refine (readShorthandValue_firm key h).bind fun r r' value rest => .ok ?_ rest
    exact congrArg (fun text => { head with styles := head.styles.insert property text }) value
  | none =>
    refine (readAttributeValue_firm key h).bind fun r r' value rest => .ok ?_ rest
    exact congrArg (fun text => { head with attributes := head.attributes.insert key text }) value

/-- An attribute stands here: a word with an assignment sign after it. -/
def StartsAttribute (ts : List Token) : Prop :=
  ∃ key assign rest, ts = key :: assign :: rest ∧ key.kind.isWord = true ∧ assign.kind = .assign

/-- An attribute stands in both streams or in none. -/
theorem Sync.attribute (h : S.Sync ts ts') :
    (∃ key assign us us', ts = key :: assign :: us ∧
      ts' = S.move.token key :: S.move.token assign :: us' ∧
      (key.kind.isWord = true ∧ assign.kind = .assign) ∧ S.Sync us us') ∨
    ¬ StartsAttribute ts ∧ ¬ StartsAttribute ts' := by
  match ts, h with
  | [], h =>
    refine .inr ⟨by simp [StartsAttribute], ?_⟩
    rintro ⟨key, assign, rest, rfl, hword, -⟩
    rw [h.not_isWord_of_nil key rfl] at hword
    cases hword
  | [key], h =>
    -- a key at the end of the first stream has a newline after it in the second
    obtain ⟨ts', rfl, rest⟩ := h.uncons
    refine .inr ⟨by simp [StartsAttribute], ?_⟩
    rintro ⟨_, assign, more, ⟨⟩, -, hassign⟩
    rw [rest.head_of_nil assign rfl] at hassign
    cases hassign
  | key :: assign :: us, h =>
    obtain ⟨_, rfl, hrest⟩ := h.uncons
    obtain ⟨us', rfl, hafter⟩ := hrest.uncons
    by_cases hboth : key.kind.isWord = true ∧ assign.kind = .assign
    · exact .inl ⟨key, assign, us, us', rfl, rfl, hboth, hafter⟩
    · refine .inr ⟨?_, ?_⟩
      · rintro ⟨_, _, _, ⟨⟩, hkinds⟩
        exact hboth hkinds
      · rintro ⟨_, _, _, ⟨⟩, hkinds⟩
        rw [Relocation.token_kind, Relocation.token_kind] at hkinds
        exact hboth hkinds

theorem readAttributes_of_not (stop : Token) (head : ElementHead) {ts : List Token}
    (h : ¬ StartsAttribute ts) : readAttributes stop head ts = .ok (.nothing head ts) := by
  rw [readAttributes.eq_def]
  split
  · rw [if_neg fun hboth => h ⟨_, _, _, rfl, hboth⟩]
  · rfl

theorem readAttributes_firm (head : ElementHead) {ts ts' : List Token} (h : S.Sync ts ts') :
    S.Firm id (readAttributes S.stop head ts) (readAttributes S.stop' head ts') := by
  rcases h.attribute with ⟨key, assign, us, us', hts, hts', hboth, hafter⟩ | ⟨hnot, hnot'⟩
  · rw [hts, hts', readAttributes, readAttributes, Relocation.token_kind, Relocation.token_kind,
      if_pos hboth, if_pos hboth]
    refine (readAttribute_firm _ head hafter).bind fun one one' value rest => ?_
    rw [value]
    exact (readAttributes_firm _ rest).bind fun _ _ value rest => .ok value rest
  · rw [readAttributes_of_not S.stop head hnot, readAttributes_of_not S.stop' head hnot']
    exact .ok rfl h
termination_by ts.length
decreasing_by
  have := one.length_le
  rw [hts, List.length_cons, List.length_cons]
  omega

end UiLang.Seam
