import JobGraph.Proofs.Json.Scanning

/-!
# The document of a written value

The parser turns the tokens of a value into its document, as long as the arrays and objects that are
open do not exceed the limit.  With the scanner this says that either text of a legible value has
the document of the value.

In the other direction every document that was read is sound.  The stack of the parser carries the
argument: what a frame holds is nested as deep as the frames around it leave room for.
-/

namespace JobGraph.Json

namespace Document

/-! ## Tokens of a value -/

theorem parse_cons {expect expect' : Expect} {stack stack' : List Frame} {token : Token}
    (h : advance expect stack token = some (expect', stack')) (rest : List Token) :
    parse expect stack (token :: rest) = parse expect' stack' rest := by
  rw [parse, h]
  rfl

/-- The parser turns the tokens of a value into its document, inside few enough frames. -/
def ParsesAs (depth : Nat) (value : Json) : Prop :=
  ∀ stack rest, stack.length + depth ≤ nestingLimit →
    parse .value stack (value.tokens ++ rest) = parse (.afterValue value.document) stack rest

/-- No value begins with the end of an array. -/
theorem exists_tokens_eq_cons (value : Json) :
    ∃ first more, value.tokens = first :: more ∧ first ≠ .closeBracket := by
  cases value with
  | array items => cases items <;> exact ⟨_, _, rfl, nofun⟩
  | object members =>
      cases members with
      | nil => exact ⟨_, _, rfl, nofun⟩
      | cons member members => exact ⟨_, _, rfl, nofun⟩
  | _ => exact ⟨_, _, rfl, nofun⟩

/-- So a value is parsed as the first item of an array like anywhere else. -/
theorem parse_firstItem (value : Json) (stack : List Frame) (rest : List Token) :
    parse .firstItem stack (value.tokens ++ rest) = parse .value stack (value.tokens ++ rest) := by
  obtain ⟨first, more, htokens, hfirst⟩ := exists_tokens_eq_cons value
  have hadvance : advance .firstItem stack first = advance .value stack first := by
    cases first with
    | closeBracket => exact absurd rfl hfirst
    | _ => cases stack <;> rfl
  rw [htokens, List.cons_append, parse, parse, hadvance]

/-- Inside few enough frames an array or object has a value. -/
theorem close_of_lt {depth : Nat} (h : depth < nestingLimit) (items : List Document)
    (members : List (String × Document)) (name : String) :
    (Frame.array items).close depth = .array items.reverse ∧
      (Frame.object members true name).close depth = .object members.reverse := by
  unfold Frame.close
  rw [if_neg (Nat.not_le.2 h), if_neg (Nat.not_le.2 h)]
  exact ⟨rfl, rfl⟩

theorem parse_itemTokens {depth : Nat} {items : List Json} (h : ∀ item ∈ items, ParsesAs depth item)
    {stack : List Frame} (hstack : stack.length + (depth + 1) ≤ nestingLimit)
    (parts : List Document) (last : Document) (rest : List Token) :
    parse (.afterValue last) (.array parts :: stack) (itemTokens items ++ rest) =
      parse (.afterValue (.array ((last :: parts).reverse ++ items.map document))) stack rest := by
  induction items generalizing parts last with
  | nil =>
      have hclose : advance (.afterValue last) (.array parts :: stack) .closeBracket =
          some (.afterValue (.array (last :: parts).reverse), stack) := by
        rw [advance, (close_of_lt (by omega) _ [] "").1]
      rw [itemTokens, List.singleton_append, parse_cons hclose, List.map_nil, List.append_nil]
  | cons item items ih =>
      have hcomma : advance (.afterValue last) (.array parts :: stack) .comma =
          some (.value, .array (last :: parts) :: stack) := rfl
      rw [itemTokens, List.cons_append, parse_cons hcomma, List.append_assoc,
        h item List.mem_cons_self _ _ (by rw [List.length_cons]; omega),
        ih (fun other hother => h other (List.mem_cons_of_mem item hother)),
        List.reverse_cons, List.append_assoc, List.map_cons, List.singleton_append]

/-- The name of a member, the colon and the value. -/
theorem parse_memberTokens_cons {depth : Nat} {value : Json} (h : ParsesAs depth value)
    {stack : List Frame} (hstack : stack.length + (depth + 1) ≤ nestingLimit) {expect : Expect}
    (hexpect : expect = .name ∨ expect = .firstName) (parts : List (String × Document))
    (name previous : String) (rest : List Token) :
    parse expect (.object parts true previous :: stack)
        (.string (some name) :: .colon :: (value.tokens ++ rest)) =
      parse (.afterValue value.document) (.object parts true name :: stack) rest := by
  have hname : advance expect (.object parts true previous :: stack) (.string (some name)) =
      some (.colon, .object parts true name :: stack) := by
    rcases hexpect with rfl | rfl <;> rfl
  have hcolon : advance .colon (.object parts true name :: stack) .colon =
      some (.value, .object parts true name :: stack) := rfl
  rw [parse_cons hname, parse_cons hcolon, h _ _ (by rw [List.length_cons]; omega)]

theorem parse_memberTokens {depth : Nat} {members : List (String × Json)}
    (h : ∀ member ∈ members, ParsesAs depth member.2) {stack : List Frame}
    (hstack : stack.length + (depth + 1) ≤ nestingLimit) (parts : List (String × Document))
    (name : String) (last : Document) (rest : List Token) :
    parse (.afterValue last) (.object parts true name :: stack) (memberTokens members ++ rest) =
      parse (.afterValue (.object (((name, last) :: parts).reverse ++
        members.map fun member => (member.1, member.2.document)))) stack rest := by
  induction members generalizing parts name last with
  | nil =>
      have hclose : advance (.afterValue last) (.object parts true name :: stack) .closeBrace =
          some (.afterValue (.object ((name, last) :: parts).reverse), stack) := by
        rw [advance, (close_of_lt (by omega) [] _ name).2]
      rw [memberTokens, List.singleton_append, parse_cons hclose, List.map_nil, List.append_nil]
  | cons member members ih =>
      have hcomma : advance (.afterValue last) (.object parts true name :: stack) .comma =
          some (.name, .object ((name, last) :: parts) true name :: stack) := rfl
      simp only [memberTokens, List.cons_append, List.append_assoc]
      rw [parse_cons hcomma,
        parse_memberTokens_cons (h member List.mem_cons_self) hstack (.inl rfl),
        ih (fun other hother => h other (List.mem_cons_of_mem member hother)),
        List.reverse_cons, List.append_assoc, List.map_cons, List.singleton_append]

/-- **Parsing.**  The tokens of a legible value are parsed as its document. -/
theorem parsesAs {allowed : Float → Prop} {depth : Nat} {value : Json}
    (h : Legible allowed depth value) : ParsesAs depth value := by
  induction h with
  | null => exact fun stack rest _ => parse_cons rfl rest
  | bool => exact fun stack rest _ => parse_cons rfl rest
  | integer => exact fun stack rest _ => parse_cons rfl rest
  | double => exact fun stack rest _ => parse_cons rfl rest
  | string => exact fun stack rest _ => parse_cons rfl rest
  | @array depth items _ ih =>
      intro stack rest hstack
      have hopen : advance .value stack .openBracket = some (.firstItem, .array [] :: stack) := rfl
      rw [document, documentItems_eq]
      cases items with
      | nil =>
          have hclose : advance .firstItem (.array [] :: stack) .closeBracket =
              some (.afterValue (.array []), stack) := by
            rw [advance, (close_of_lt (by omega) [] [] "").1]
            rfl
          rw [tokens, List.cons_append, List.singleton_append, parse_cons hopen, parse_cons hclose,
            List.map_nil]
      | cons item items =>
          rw [tokens, List.cons_append, parse_cons hopen, List.append_assoc, parse_firstItem,
            ih item List.mem_cons_self _ _ (by rw [List.length_cons]; omega),
            parse_itemTokens (fun other hother => ih other (List.mem_cons_of_mem item hother)) hstack]
          rfl
  | @object depth members _ ih =>
      intro stack rest hstack
      have hopen : advance .value stack .openBrace = some (.firstName, .object [] true "" :: stack) :=
        rfl
      rw [document, documentMembers_eq]
      cases members with
      | nil =>
          have hclose : advance .firstName (.object [] true "" :: stack) .closeBrace =
              some (.afterValue (.object []), stack) := by
            rw [advance, (close_of_lt (by omega) [] [] "").2]
            rfl
          rw [tokens, List.cons_append, List.singleton_append, parse_cons hopen, parse_cons hclose,
            List.map_nil]
      | cons member members =>
          simp only [tokens, List.cons_append, List.append_assoc]
          rw [parse_cons hopen,
            parse_memberTokens_cons (ih member List.mem_cons_self) hstack (.inr rfl),
            parse_memberTokens (fun other hother => ih other (List.mem_cons_of_mem member hother))
              hstack]
          rfl

/-- **Texts.**  Both texts of a legible value are read as its document. -/
theorem read?_texts {value : Json} (h : Legible ReadsBack nestingLimit value) :
    read? value.compact = some value.document ∧ read? value.indented = some value.document := by
  have hprinted : ∀ style : Style, (tokens? (printed style 0 value)).bind (parse .value []) =
      some value.document := by
    intro style
    have hscan := h.scansAs style 0 [] delimited_nil
    have hparse := parsesAs h [] [] (by simp)
    rw [List.append_nil] at hscan hparse
    rw [tokens?, hscan, Scan.run, Scan.finish, Option.map_some, List.append_nil, Option.bind_some,
      hparse]
    rfl
  constructor
  · rw [read?, compact, String.toList_ofList, compactChars_eq 0]
    exact hprinted .compact
  · rw [read?, indented, String.toList_ofList, indentedChars_eq 0]
    exact hprinted .indented

end Document

/-- A canonical value is the value of either of its texts. -/
theorem read?_texts {value : Json} (h : Legible ReadsBack nestingLimit value)
    (hcanonical : Canonical value) :
    read? value.compact = some value ∧ read? value.indented = some value := by
  obtain ⟨hcompact, hindented⟩ := Document.read?_texts h
  constructor
  · rw [read?, hcompact]
    exact Document.value?_document hcanonical
  · rw [read?, hindented]
    exact Document.value?_document hcanonical

/-! ## What is read is sound -/

/-- A number token that has a value has an integer of 64 bits or a double. -/
def Token.Sound : Token → Prop
  | .number (some value) => (∃ n, IsWord n ∧ value = .integer n) ∨ ∃ x, value = .double x
  | _ => True

namespace Scan

theorem sound_of_word? {letters : List Char} {token : Token} (h : word? letters = some token) :
    token.Sound := by
  unfold word? at h
  split at h
  · rw [← Option.some.inj h]
    trivial
  · split at h
    · rw [← Option.some.inj h]
      trivial
    · split at h
      · rw [← Option.some.inj h]
        trivial
      · exact absurd h nofun

theorem sound_of_number? {cs : List Char} {token : Token} (h : number? cs = some token) :
    token.Sound := by
  obtain ⟨spelling, -, rfl⟩ := Option.map_eq_some_iff.1 h
  cases hvalue : spelling.value? with
  | none => trivial
  | some value => exact Spelling.value?_cases hvalue

theorem sound_of_punctuation? {c : Char} {token : Token} (h : punctuation? c = some token) :
    token.Sound := by
  unfold punctuation? at h
  repeat'
    split at h
    · rw [← Option.some.inj h]
      trivial
  exact absurd h nofun

/-- A character that completes no token. -/
theorem sound_of_silent {tokens : List Token} {after after' : Scan}
    (h : some (([] : List Token), after') = some (tokens, after)) :
    ∀ token ∈ tokens, token.Sound := by
  rw [← (Prod.mk.inj (Option.some.inj h)).1]
  exact List.forall_mem_nil _

theorem sound_start {c : Char} {tokens : List Token} {after : Scan}
    (h : start c = some (tokens, after)) : ∀ token ∈ tokens, token.Sound := by
  unfold start at h
  split at h
  · exact sound_of_silent h
  · split at h
    · exact sound_of_silent h
    · split at h
      · exact sound_of_silent h
      · split at h
        · exact sound_of_silent h
        · obtain ⟨token, htoken, heq⟩ := Option.map_eq_some_iff.1 h
          rw [← (Prod.mk.inj heq).1, List.forall_mem_singleton]
          exact sound_of_punctuation? htoken

/-- A character that completes a word or a number, and may be a token itself. -/
theorem sound_of_pending {found : Option Token} {c : Char} {tokens : List Token} {after : Scan}
    (hfound : ∀ token, found = some token → token.Sound)
    (h : (found.bind fun token => (start c).bind fun started =>
      some (token :: started.1, started.2)) = some (tokens, after)) :
    ∀ token ∈ tokens, token.Sound := by
  obtain ⟨first, hfirst, h⟩ := Option.bind_eq_some_iff.1 h
  obtain ⟨started, hstarted, h⟩ := Option.bind_eq_some_iff.1 h
  rw [← (Prod.mk.inj (Option.some.inj h)).1, List.forall_mem_cons]
  exact ⟨hfound first hfirst, sound_start hstarted⟩

theorem sound_next {scan after : Scan} {c : Char} {tokens : List Token}
    (h : scan.next c = some (tokens, after)) : ∀ token ∈ tokens, token.Sound := by
  cases scan with
  | between => exact sound_start h
  | word letters =>
      rw [next] at h
      split at h
      · exact sound_of_silent h
      · exact sound_of_pending (fun _ => sound_of_word?) h
  | number characters =>
      rw [next] at h
      split at h
      · exact sound_of_silent h
      · exact sound_of_pending (fun _ => sound_of_number?) h
  | text points =>
      rw [next] at h
      split at h
      · -- any text is sound, also one without characters
        rw [← (Prod.mk.inj (Option.some.inj h)).1, List.forall_mem_singleton]
        trivial
      · split at h
        · exact sound_of_silent h
        · split at h
          · cases h
          · exact sound_of_silent h
  | escape points =>
      rw [next] at h
      split at h
      · exact sound_of_silent h
      · obtain ⟨meant, -, heq⟩ := Option.map_eq_some_iff.1 h
        exact sound_of_silent (congrArg some heq)
  | unit points remaining value =>
      rw [next] at h
      obtain ⟨digit, -, heq⟩ := Option.map_eq_some_iff.1 h
      split at heq
      · exact sound_of_silent (congrArg some heq)
      · exact sound_of_silent (congrArg some heq)

theorem sound_finish {scan : Scan} {tokens : List Token} (h : scan.finish = some tokens) :
    ∀ token ∈ tokens, token.Sound := by
  cases scan with
  | between =>
      rw [← Option.some.inj h]
      exact List.forall_mem_nil _
  | word letters =>
      obtain ⟨token, htoken, rfl⟩ := Option.map_eq_some_iff.1 h
      exact List.forall_mem_singleton.2 (sound_of_word? htoken)
  | number characters =>
      obtain ⟨token, htoken, rfl⟩ := Option.map_eq_some_iff.1 h
      exact List.forall_mem_singleton.2 (sound_of_number? htoken)
  | text points => cases h
  | escape points => cases h
  | unit points remaining value => cases h

/-- Every token of a text is sound. -/
theorem sound_run {cs : List Char} {scan : Scan} {tokens : List Token}
    (h : scan.run cs = some tokens) : ∀ token ∈ tokens, token.Sound := by
  induction cs generalizing scan tokens with
  | nil => exact sound_finish h
  | cons c cs ih =>
      obtain ⟨⟨completed, after⟩, hnext, h⟩ := Option.bind_eq_some_iff.1 h
      obtain ⟨further, hfurther, h⟩ := Option.bind_eq_some_iff.1 h
      rw [← Option.some.inj h]
      intro token htoken
      exact (List.mem_append.1 htoken).elim (sound_next hnext token) (ih hfurther token)

end Scan

namespace Document

/-- The finished parts of an open array or object. -/
def Frame.parts : Frame → List Document
  | .array items => items
  | .object members _ _ => members.map Prod.snd

/-- What the open frames hold is nested no deeper than the frames around it leave room for. -/
def SoundStack : List Frame → Prop
  | [] => True
  | frame :: outer =>
      (∀ part ∈ frame.parts, Sound (nestingLimit - 1 - outer.length) part) ∧ SoundStack outer

/-- So is a value that was just finished. -/
def SoundExpect (depth : Nat) : Expect → Prop
  | .afterValue value => Sound (nestingLimit - depth) value
  | _ => True

theorem sound_close {frame : Frame} {depth : Nat}
    (h : ∀ part ∈ frame.parts, Sound (nestingLimit - 1 - depth) part) :
    Sound (nestingLimit - depth) (frame.close depth) := by
  unfold Frame.close
  split
  · exact .unreadable _
  · rename_i hdepth
    have hlimit : nestingLimit - depth = nestingLimit - 1 - depth + 1 := by
      rw [nestingLimit] at hdepth ⊢
      omega
    rw [hlimit]
    cases frame with
    | array items => exact .array fun item hitem => h item (List.mem_reverse.1 hitem)
    | object members readable name =>
        dsimp only
        split
        · exact .object fun member hmember =>
            h member.2 (List.mem_map_of_mem (List.mem_reverse.1 hmember))
        · exact .unreadable _

theorem sound_ofToken? {token : Token} (htoken : token.Sound) {document : Document}
    (h : ofToken? token = some document) (depth : Nat) : Sound depth document := by
  cases token with
  | null =>
      rw [← Option.some.inj h]
      exact .null _
  | bool value =>
      rw [← Option.some.inj h]
      exact .bool _ _
  | number value =>
      rw [← Option.some.inj h]
      cases value with
      | none => exact .unreadable _
      | some value =>
          rcases htoken with ⟨n, hword, rfl⟩ | ⟨x, rfl⟩
          · exact .integer _ hword
          · exact .double _ _
  | string text =>
      rw [← Option.some.inj h]
      cases text with
      | none => exact .unreadable _
      | some text => exact .string _ _
  | _ => exact absurd h nofun

section Step

variable {expect expect' : Expect} {stack stack' : List Frame} {token : Token}

theorem sound_beginValue (htoken : token.Sound) (hstack : SoundStack stack)
    (h : beginValue stack token = some (expect', stack')) :
    SoundExpect stack'.length expect' ∧ SoundStack stack' := by
  unfold beginValue at h
  split at h
  · obtain ⟨rfl, rfl⟩ := Prod.mk.inj (Option.some.inj h)
    exact ⟨trivial, List.forall_mem_nil _, hstack⟩
  · obtain ⟨rfl, rfl⟩ := Prod.mk.inj (Option.some.inj h)
    exact ⟨trivial, List.forall_mem_nil _, hstack⟩
  · obtain ⟨value, hvalue, h⟩ := Option.map_eq_some_iff.1 h
    obtain ⟨rfl, rfl⟩ := Prod.mk.inj h
    exact ⟨sound_ofToken? htoken hvalue _, hstack⟩

theorem sound_beginMember (hstack : SoundStack stack)
    (h : beginMember stack token = some (expect', stack')) :
    SoundExpect stack'.length expect' ∧ SoundStack stack' := by
  unfold beginMember at h
  split at h
  · obtain ⟨rfl, rfl⟩ := Prod.mk.inj (Option.some.inj h)
    exact ⟨trivial, hstack⟩
  · cases h

/-- The innermost frame is closed. -/
theorem sound_of_closed (frame : Frame) {outer : List Frame}
    (hframe : ∀ part ∈ frame.parts, Sound (nestingLimit - 1 - outer.length) part)
    (houter : SoundStack outer)
    (h : some (Expect.afterValue (frame.close outer.length), outer) = some (expect', stack')) :
    SoundExpect stack'.length expect' ∧ SoundStack stack' := by
  obtain ⟨rfl, rfl⟩ := Prod.mk.inj (Option.some.inj h)
  exact ⟨sound_close hframe, houter⟩

/-- A finished value becomes a part of the innermost frame. -/
theorem sound_afterValue {value : Document} (hvalue : SoundExpect stack.length (.afterValue value))
    (hstack : SoundStack stack)
    (h : advance (.afterValue value) stack token = some (expect', stack')) :
    SoundExpect stack'.length expect' ∧ SoundStack stack' := by
  cases stack with
  | nil => cases h
  | cons frame outer =>
      have hsame : nestingLimit - (frame :: outer).length = nestingLimit - 1 - outer.length := by
        rw [List.length_cons, Nat.sub_sub, Nat.add_comm]
      rw [SoundExpect, hsame] at hvalue
      have hpushed : ∀ part ∈ value :: frame.parts, Sound (nestingLimit - 1 - outer.length) part :=
        List.forall_mem_cons.2 ⟨hvalue, hstack.1⟩
      cases frame with
      | array items =>
          cases token with
          | comma =>
              obtain ⟨rfl, rfl⟩ := Prod.mk.inj (Option.some.inj h)
              exact ⟨trivial, hpushed, hstack.2⟩
          | closeBracket => exact sound_of_closed (.array (value :: items)) hpushed hstack.2 h
          | _ => cases h
      | object members readable name =>
          cases token with
          | comma =>
              obtain ⟨rfl, rfl⟩ := Prod.mk.inj (Option.some.inj h)
              exact ⟨trivial, hpushed, hstack.2⟩
          | closeBrace =>
              exact sound_of_closed (.object ((name, value) :: members) readable name) hpushed
                hstack.2 h
          | _ => cases h

/-- One token keeps the parser sound. -/
theorem sound_advance (htoken : token.Sound) (hexpect : SoundExpect stack.length expect)
    (hstack : SoundStack stack) (h : advance expect stack token = some (expect', stack')) :
    SoundExpect stack'.length expect' ∧ SoundStack stack' := by
  cases expect with
  | value => exact sound_beginValue htoken hstack h
  | firstItem =>
      cases stack with
      | nil => exact sound_beginValue htoken hstack h
      | cons frame outer =>
          cases token with
          | closeBracket => exact sound_of_closed frame hstack.1 hstack.2 h
          | _ => exact sound_beginValue htoken hstack h
  | firstName =>
      cases stack with
      | nil => cases h
      | cons frame outer =>
          cases token with
          | closeBrace => exact sound_of_closed frame hstack.1 hstack.2 h
          | _ => exact sound_beginMember hstack h
  | name => exact sound_beginMember hstack h
  | colon =>
      rw [advance] at h
      split at h
      · obtain ⟨rfl, rfl⟩ := Prod.mk.inj (Option.some.inj h)
        exact ⟨trivial, hstack⟩
      · cases h
  | afterValue value => exact sound_afterValue hexpect hstack h

end Step

theorem sound_parse {tokens : List Token} {expect : Expect} {stack : List Frame}
    {document : Document} (htokens : ∀ token ∈ tokens, token.Sound)
    (hexpect : SoundExpect stack.length expect) (hstack : SoundStack stack)
    (h : parse expect stack tokens = some document) : Sound nestingLimit document := by
  induction tokens generalizing expect stack with
  | nil =>
      unfold parse at h
      split at h
      · rw [← Option.some.inj h]
        exact hexpect
      · exact absurd h nofun
  | cons token tokens ih =>
      obtain ⟨⟨expect', stack'⟩, hadvance, h⟩ := Option.bind_eq_some_iff.1 h
      obtain ⟨htoken, htokens⟩ := List.forall_mem_cons.1 htokens
      obtain ⟨hexpect', hstack'⟩ := sound_advance htoken hexpect hstack hadvance
      exact ih htokens hexpect' hstack' h

/-- **Soundness.**  Every document that was read is sound. -/
theorem sound_read? {text : String} {document : Document} (h : read? text = some document) :
    Sound nestingLimit document := by
  obtain ⟨tokens, htokens, hparse⟩ := Option.bind_eq_some_iff.1 h
  have hexpect : SoundExpect ([] : List Frame).length .value := trivial
  exact sound_parse (Scan.sound_run htokens) hexpect trivial hparse

end Document

end JobGraph.Json
