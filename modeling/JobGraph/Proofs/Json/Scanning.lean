import JobGraph.Json.Writing
import JobGraph.Proofs.Json.Values

/-!
# The tokens of a written value

The two texts of a value differ in the blanks between tokens only, so both are `printed` in a
`Style`.  The scanner passes over blanks and finds in either text the `tokens` of the value.

Words and numbers have no end of their own: the scanner must see a character that cannot belong to
them.  What follows a value in a text is always `Delimited` in this way.
-/

namespace JobGraph.Json

/-! ## Styles -/

/-- How a value is laid out: the blanks that begin a line at a level, and those behind a colon. -/
structure Style where
  line : Nat → List Char
  gap : List Char
  isSpace_of_mem_line : ∀ level, ∀ c ∈ line level, isSpace c = true
  isSpace_of_mem_gap : ∀ c ∈ gap, isSpace c = true

/-- No blanks at all. -/
def Style.compact : Style where
  line _ := []
  gap := []
  isSpace_of_mem_line := nofun
  isSpace_of_mem_gap := nofun

/-- A line for each item and member. -/
def Style.indented : Style where
  line := newLine
  gap := [' ']
  isSpace_of_mem_line level c hc := by
    rcases List.mem_cons.1 hc with rfl | hc
    · decide
    · rw [List.eq_of_mem_replicate hc]
      decide
  isSpace_of_mem_gap := List.all_eq_true.1 rfl

mutual

/-- The characters of a value at a level. -/
def printed (style : Style) (level : Nat) : Json → List Char
  | .array (item :: rest) =>
      '[' :: (style.line (level + 1) ++ (printed style (level + 1) item ++
        printedItems style level rest))
  | .object ((name, value) :: rest) =>
      '{' :: (style.line (level + 1) ++ (stringText name ++ (':' :: (style.gap ++
        (printed style (level + 1) value ++ printedMembers style level rest)))))
  | .null => "null".toList
  | .bool true => "true".toList
  | .bool false => "false".toList
  | .integer n => integerText n
  | .double x => doubleText x
  | .string s => stringText s
  | .array [] => ['[', ']']
  | .object [] => ['{', '}']

/-- Further items of an array, and its end. -/
def printedItems (style : Style) (level : Nat) : List Json → List Char
  | [] => style.line level ++ [']']
  | item :: rest =>
      ',' :: (style.line (level + 1) ++ (printed style (level + 1) item ++
        printedItems style level rest))

/-- Further members of an object, and its end. -/
def printedMembers (style : Style) (level : Nat) : List (String × Json) → List Char
  | [] => style.line level ++ ['}']
  | (name, value) :: rest =>
      ',' :: (style.line (level + 1) ++ (stringText name ++ (':' :: (style.gap ++
        (printed style (level + 1) value ++ printedMembers style level rest)))))

end

mutual

/-- The compact text is printed without blanks. -/
theorem compactChars_eq (level : Nat) : ∀ value : Json,
    value.compactChars = printed .compact level value
  | .null | .bool true | .bool false | .integer _ | .double _ | .string _ => rfl
  | .array [] | .object [] => rfl
  | .array (item :: rest) => by
      rw [compactChars, printed, compactChars_eq (level + 1) item, compactItems_eq level rest]
      rfl
  | .object ((name, value) :: rest) => by
      rw [compactChars, printed, compactChars_eq (level + 1) value, compactMembers_eq level rest]
      simp [Style.compact]

theorem compactItems_eq (level : Nat) : ∀ items : List Json,
    compactItems items = printedItems .compact level items
  | [] => rfl
  | item :: rest => by
      rw [compactItems, printedItems, compactChars_eq (level + 1) item, compactItems_eq level rest]
      rfl

theorem compactMembers_eq (level : Nat) : ∀ members : List (String × Json),
    compactMembers members = printedMembers .compact level members
  | [] => rfl
  | (name, value) :: rest => by
      rw [compactMembers, printedMembers, compactChars_eq (level + 1) value,
        compactMembers_eq level rest]
      simp [Style.compact]

end

mutual

/-- The indented text is printed with a line for each item and member. -/
theorem indentedChars_eq (level : Nat) : ∀ value : Json,
    value.indentedChars level = printed .indented level value
  | .null | .bool true | .bool false | .integer _ | .double _ | .string _ => rfl
  | .array [] | .object [] => rfl
  | .array (item :: rest) => by
      rw [indentedChars, printed, indentedChars_eq (level + 1) item, indentedItems_eq level rest]
      simp [Style.indented]
  | .object ((name, value) :: rest) => by
      rw [indentedChars, printed, indentedChars_eq (level + 1) value, indentedMembers_eq level rest]
      simp [Style.indented]

theorem indentedItems_eq (level : Nat) : ∀ items : List Json,
    indentedItems level items = printedItems .indented level items
  | [] => rfl
  | item :: rest => by
      rw [indentedItems, printedItems, indentedChars_eq (level + 1) item,
        indentedItems_eq level rest]
      simp [Style.indented]

theorem indentedMembers_eq (level : Nat) : ∀ members : List (String × Json),
    indentedMembers level members = printedMembers .indented level members
  | [] => rfl
  | (name, value) :: rest => by
      rw [indentedMembers, printedMembers, indentedChars_eq (level + 1) value,
        indentedMembers_eq level rest]
      simp [Style.indented]

end

/-! ## Tokens -/

mutual

/-- The tokens of a value. -/
def tokens : Json → List Token
  | .null => [.null]
  | .bool value => [.bool value]
  | .integer n => [.number (some (.integer n))]
  | .double x => [.number (some (.double x))]
  | .string s => [.string (some s)]
  | .array [] => [.openBracket, .closeBracket]
  | .array (item :: rest) => .openBracket :: (item.tokens ++ itemTokens rest)
  | .object [] => [.openBrace, .closeBrace]
  | .object ((name, value) :: rest) =>
      .openBrace :: .string (some name) :: .colon :: (value.tokens ++ memberTokens rest)

/-- The tokens of further items of an array, and its end. -/
def itemTokens : List Json → List Token
  | [] => [.closeBracket]
  | item :: rest => .comma :: (item.tokens ++ itemTokens rest)

/-- The tokens of further members of an object, and its end. -/
def memberTokens : List (String × Json) → List Token
  | [] => [.closeBrace]
  | (name, value) :: rest =>
      .comma :: .string (some name) :: .colon :: (value.tokens ++ memberTokens rest)

end

/-! ## One character -/

namespace Scan

variable {scan after : Scan} {c : Char} {rest : List Char}

theorem run_cons {tokens : List Token} (h : scan.next c = some (tokens, after)) (rest : List Char) :
    scan.run (c :: rest) = (after.run rest).map (tokens ++ ·) := by
  rw [run, h, Option.bind_eq_bind, Option.bind_some, Option.map_eq_bind]
  rfl

/-- A character that completes no token. -/
theorem run_silent (h : scan.next c = some ([], after)) (rest : List Char) :
    scan.run (c :: rest) = after.run rest := by
  rw [run_cons h]
  exact Option.map_id'

/-- A character that completes a token. -/
theorem run_token {token : Token} (h : scan.next c = some ([token], after)) (rest : List Char) :
    scan.run (c :: rest) = (after.run rest).map (token :: ·) :=
  run_cons h rest

/-- Blanks between tokens are passed over. -/
theorem run_spaces {spaces : List Char} (h : ∀ c ∈ spaces, isSpace c = true) (rest : List Char) :
    between.run (spaces ++ rest) = between.run rest := by
  induction spaces with
  | nil => rfl
  | cons c spaces ih =>
      have hstart : between.next c = some ([], between) := by
        rw [next, start, if_pos (h c List.mem_cons_self)]
      rw [List.cons_append, run_silent hstart]
      exact ih fun d hd => h d (List.mem_cons_of_mem c hd)

end Scan

/-! ## Words and numbers -/

/-- A text that cannot go on with a word or a number that stands before it. -/
def Delimited (rest : List Char) : Prop :=
  ∀ c ∈ rest.head?, isNumberPart c = false ∧ isWordPart c = false

theorem delimited_nil : Delimited [] :=
  fun _ hc => absurd hc (Option.not_mem_none _)

theorem delimited_cons {c : Char} {rest : List Char}
    (h : isNumberPart c = false ∧ isWordPart c = false) : Delimited (c :: rest) := by
  intro d hd
  rw [List.head?_cons, Option.mem_some_iff] at hd
  rwa [← hd]

theorem delimited_of_isSpace {c : Char} (h : isSpace c = true) (rest : List Char) :
    Delimited (c :: rest) := by
  have hcases : c = ' ' ∨ c = '\n' ∨ c = '\t' ∨ c = '\r' := by
    simpa [isSpace, or_assoc] using h
  refine delimited_cons ?_
  rcases hcases with rfl | rfl | rfl | rfl <;> decide

theorem Delimited.spaces {spaces rest : List Char} (hspaces : ∀ c ∈ spaces, isSpace c = true)
    (h : Delimited rest) : Delimited (spaces ++ rest) := by
  cases spaces with
  | nil => exact h
  | cons c spaces => exact delimited_of_isSpace (hspaces c List.mem_cons_self) _

namespace Scan

variable {rest : List Char}

/-- A token that is complete ends where it cannot go on. -/
private theorem run_pending {scan : Scan} {token : Token} (hfinish : scan.finish = some [token])
    (hnext : ∀ c ∈ rest.head?,
      scan.next c = (start c).map fun started => (token :: started.1, started.2)) :
    scan.run rest = (between.run rest).map (token :: ·) := by
  cases rest with
  | nil =>
      rw [run, hfinish]
      rfl
  | cons c rest =>
      cases hstart : start c with
      | none => rw [run, hnext c rfl, run, next, hstart]; rfl
      | some started =>
          have hpending : scan.next c = some (token :: started.1, started.2) := by
            rw [hnext c rfl, hstart]
            rfl
          have hfresh : between.next c = some (started.1, started.2) := hstart
          rw [run_cons hpending, run_cons hfresh, Option.map_map]
          rfl

/-- A word ends where it cannot go on. -/
theorem run_word {letters : List Char} {token : Token} (hword : word? letters.reverse = some token)
    (hrest : Delimited rest) :
    (word letters).run rest = (between.run rest).map (token :: ·) := by
  refine run_pending (by rw [finish, hword]; rfl) fun c hc => ?_
  rw [next, if_neg (by simp [(hrest c hc).2]), hword, Option.map_eq_bind]
  rfl

/-- The scanner reads a word to its end. -/
theorem run_wordText {first : Char} {cs : List Char} {token : Token}
    (hstart : start first = some ([], word [first])) (hparts : ∀ c ∈ cs, isWordPart c = true)
    (hword : word? (first :: cs) = some token) (hrest : Delimited rest) :
    between.run (first :: cs ++ rest) = (between.run rest).map (token :: ·) := by
  have happend : ∀ letters : List Char,
      (word letters).run (cs ++ rest) = (word (cs.reverse ++ letters)).run rest := by
    clear hword
    induction cs with
    | nil => exact fun _ => rfl
    | cons c cs ih =>
        intro letters
        have hnext : (word letters).next c = some ([], word (c :: letters)) := by
          rw [next, if_pos (hparts c List.mem_cons_self)]
        rw [List.cons_append, run_silent hnext, ih fun d hd => hparts d (List.mem_cons_of_mem c hd),
          List.reverse_cons, List.append_assoc, List.singleton_append]
  have hnext : between.next first = some ([], word [first]) := hstart
  rw [List.cons_append, run_silent hnext, happend]
  exact run_word (by simpa using hword) hrest

/-- So does a number. -/
theorem run_number {characters : List Char} {token : Token}
    (hnumber : number? characters.reverse = some token) (hrest : Delimited rest) :
    (number characters).run rest = (between.run rest).map (token :: ·) := by
  refine run_pending (by rw [finish, hnumber]; rfl) fun c hc => ?_
  rw [next, if_neg (by simp [(hrest c hc).1]), hnumber, Option.map_eq_bind]
  rfl

theorem run_number_append {cs : List Char} (h : ∀ c ∈ cs, isNumberPart c = true)
    (characters rest : List Char) :
    (number characters).run (cs ++ rest) = (number (cs.reverse ++ characters)).run rest := by
  induction cs generalizing characters with
  | nil => rfl
  | cons c cs ih =>
      have hnext : (number characters).next c = some ([], number (c :: characters)) := by
        rw [next, if_pos (h c List.mem_cons_self)]
      rw [List.cons_append, run_silent hnext, ih fun d hd => h d (List.mem_cons_of_mem c hd),
        List.reverse_cons, List.append_assoc, List.singleton_append]

theorem start_of_isNumberStart {c : Char} (h : isNumberStart c = true) :
    start c = some ([], number [c]) := by
  have hspace : isSpace c = false := by
    by_contra hspace
    rw [Bool.not_eq_false] at hspace
    have hcases : c = ' ' ∨ c = '\n' ∨ c = '\t' ∨ c = '\r' := by
      simpa [isSpace, or_assoc] using hspace
    rcases hcases with rfl | rfl | rfl | rfl <;> exact absurd h (by decide)
  have hquote : c ≠ '"' := by
    rintro rfl
    exact absurd h (by decide)
  rw [start, if_neg (by simp [hspace]), if_neg hquote, if_pos h]

/-- The scanner reads a number to its end. -/
theorem run_isNumberText {cs : List Char} (htext : IsNumberText cs) (rest : List Char) :
    between.run (cs ++ rest) = (number cs.reverse).run rest := by
  obtain ⟨⟨c, hhead, hstart⟩, hparts⟩ := htext
  cases cs with
  | nil => exact absurd hhead (Option.not_mem_none c)
  | cons first cs =>
      obtain rfl : first = c := Option.some.inj hhead
      have hnext : between.next first = some ([], number [first]) := start_of_isNumberStart hstart
      rw [List.cons_append, run_silent hnext,
        run_number_append fun d hd => hparts d (List.mem_cons_of_mem first hd), List.reverse_cons]

/-- A text of number parts is scanned as one number. -/
theorem run_numberText {cs : List Char} {token : Token} (htext : IsNumberText cs)
    (hnumber : number? cs = some token) (hrest : Delimited rest) :
    between.run (cs ++ rest) = (between.run rest).map (token :: ·) := by
  rw [run_isNumberText htext]
  exact run_number (by rwa [List.reverse_reverse]) hrest

end Scan

/-! ## Strings -/

/-- No character is half of a surrogate pair. -/
theorem joinSurrogates_map_toNat (cs : List Char) : joinSurrogates (cs.map Char.toNat) = some cs := by
  have hplain : ∀ c : Char, isHighSurrogate c.toNat = false ∧ isLowSurrogate c.toNat = false := by
    intro c
    have hvalid := c.valid
    rw [UInt32.isValidChar, Nat.isValidChar] at hvalid
    have hval : c.val.toNat = c.toNat := rfl
    simp only [isHighSurrogate, isLowSurrogate, Bool.and_eq_false_iff, decide_eq_false_iff_not]
    omega
  induction cs with
  | nil => rfl
  | cons c cs ih =>
      cases cs with
      | nil => simp [joinSurrogates, hplain c]
      | cons d cs =>
          rw [List.map_cons, List.map_cons, joinSurrogates, if_neg (by simp [hplain c]),
            if_neg (by simp [hplain c]), ← List.map_cons, ih, Char.ofNat_toNat]
          rfl

namespace Scan

theorem hexDigit?_digitChar {d : Nat} (h : d < 16) : hexDigit? (Nat.digitChar d) = some d := by
  revert d
  decide

/-- An escape of one letter. -/
theorem run_letter {letter meant : Char} (hu : letter ≠ 'u') (hescaped : escaped? letter = some meant)
    (points : List Nat) (rest : List Char) :
    (text points).run ('\\' :: letter :: rest) = (text (meant.toNat :: points)).run rest := by
  have hbackslash : (text points).next '\\' = some ([], escape points) := rfl
  have hnext : (escape points).next letter = some ([], text (meant.toNat :: points)) := by
    rw [next, if_neg hu, hescaped]
    rfl
  rw [run_silent hbackslash, run_silent hnext]

theorem run_digit (points : List Nat) (remaining value : Nat) {d : Nat} (hd : d < 16)
    (rest : List Char) :
    (unit points (remaining + 2) value).run (Nat.digitChar d :: rest) =
      (unit points (remaining + 1) (value * 16 + d)).run rest := by
  refine run_silent ?_ rest
  rw [next, hexDigit?_digitChar hd, Option.map_some, if_neg (by omega)]
  rfl

theorem run_last_digit (points : List Nat) (value : Nat) {d : Nat} (hd : d < 16)
    (rest : List Char) :
    (unit points 1 value).run (Nat.digitChar d :: rest) =
      (text ((value * 16 + d) :: points)).run rest := by
  refine run_silent ?_ rest
  rw [next, hexDigit?_digitChar hd, Option.map_some, if_pos le_rfl]

/-- An escape of four digits, the first two of which are zero. -/
theorem run_unit {n : Nat} (hn : n < 256) (points : List Nat) (rest : List Char) :
    (text points).run ('\\' :: 'u' :: Nat.digitChar 0 :: Nat.digitChar 0 ::
      Nat.digitChar (n / 16) :: Nat.digitChar (n % 16) :: rest) = (text (n :: points)).run rest := by
  have hbackslash : (text points).next '\\' = some ([], escape points) := rfl
  have hu : (escape points).next 'u' = some ([], unit points 4 0) := rfl
  have hvalue : (((0 * 16 + 0) * 16 + 0) * 16 + n / 16) * 16 + n % 16 = n := by omega
  rw [run_silent hbackslash, run_silent hu, run_digit points 2 0 (by decide),
    run_digit points 1 _ (by decide), run_digit points 0 _ (by omega),
    run_last_digit points _ (by omega), hvalue]

/-- One character of a string is read as it was meant. -/
theorem run_escapeChar (c : Char) (points : List Nat) (rest : List Char) :
    (text points).run (escapeChar c ++ rest) = (text (c.toNat :: points)).run rest := by
  have hletter : ∀ letter meant : Char, c.toNat = meant.toNat → letter ≠ 'u' →
      escaped? letter = some meant →
        (text points).run ('\\' :: letter :: rest) = (text (c.toNat :: points)).run rest := by
    intro letter meant hmeant hu hescaped
    rw [hmeant]
    exact run_letter hu hescaped points rest
  unfold escapeChar
  split
  · rename_i hquote
    exact hletter '"' '"' (congrArg Char.toNat hquote) (by decide) rfl
  split
  · rename_i hbackslash
    exact hletter '\\' '\\' (congrArg Char.toNat hbackslash) (by decide) rfl
  split
  · rename_i hnewline
    exact hletter 'n' '\n' (congrArg Char.toNat hnewline) (by decide) rfl
  split
  · rename_i hreturn
    exact hletter 'r' '\r' (congrArg Char.toNat hreturn) (by decide) rfl
  split
  · rename_i htab
    exact hletter 't' '\t' (congrArg Char.toNat htab) (by decide) rfl
  split
  · rename_i hbackspace
    exact hletter 'b' (Char.ofNat 8) hbackspace (by decide) rfl
  split
  · rename_i hfeed
    exact hletter 'f' (Char.ofNat 12) hfeed (by decide) rfl
  split
  · rename_i hcontrol
    exact run_unit (hcontrol.trans (by decide)) points rest
  · -- every other character stands for itself
    rename_i hquote hbackslash _ _ _ _ _ hcontrol
    have hnext : (text points).next c = some ([], text (c.toNat :: points)) := by
      rw [next, if_neg hquote, if_neg hbackslash, if_neg hcontrol]
    exact run_silent hnext rest

theorem run_text (cs : List Char) (points : List Nat) (rest : List Char) :
    (text points).run (cs.flatMap escapeChar ++ '"' :: rest) =
      (between.run rest).map
        (.string ((joinSurrogates (points.reverse ++ cs.map Char.toNat)).map String.ofList) :: ·) := by
  induction cs generalizing points with
  | nil =>
      have hquote : (text points).next '"' =
          some ([.string ((joinSurrogates points.reverse).map String.ofList)], between) := rfl
      rw [List.flatMap_nil, List.nil_append, run_token hquote, List.map_nil, List.append_nil]
  | cons c cs ih =>
      rw [List.flatMap_cons, List.append_assoc, run_escapeChar, ih, List.reverse_cons,
        List.append_assoc, List.singleton_append, List.map_cons]

/-- A string is scanned as itself. -/
theorem run_stringText (s : String) (rest : List Char) :
    between.run (stringText s ++ rest) = (between.run rest).map (.string (some s) :: ·) := by
  have hquote : between.next '"' = some ([], text []) := rfl
  rw [stringText, List.append_assoc, List.cons_append, run_silent hquote, List.singleton_append,
    run_text, List.reverse_nil, List.nil_append, joinSurrogates_map_toNat, Option.map_some,
    String.ofList_toList]

end Scan

/-! ## Doubles -/

/-- What is written for a double is read as the same double. -/
def ReadsBack (x : Float) : Prop :=
  Json.read? (double x).compact = some (.double x)

instance (x : Float) : Decidable (ReadsBack x) :=
  inferInstanceAs (Decidable (_ = _))

/-- Numbers are integers and doubles. -/
theorem Spelling.value?_cases {spelling : Spelling} {value : Json} (h : spelling.value? = some value) :
    (∃ n, IsWord n ∧ value = .integer n) ∨ ∃ x, value = .double x := by
  unfold Spelling.value? at h
  dsimp only at h
  split at h
  · rename_i hplain
    simp only [Bool.and_eq_true, decide_eq_true_eq] at hplain
    exact .inl ⟨_, isWord_of_lt hplain.2, (Option.some.inj h).symm⟩
  · split at h
    · rename_i hplain
      simp only [Bool.and_eq_true, decide_eq_true_eq] at hplain
      refine .inl ⟨_, ⟨?_, ?_⟩, (Option.some.inj h).symm⟩ <;> omega
    · obtain ⟨x, -, hx⟩ := Option.map_eq_some_iff.1 h
      exact .inr ⟨x, hx.symm⟩

/-- The number that is written for such a double has its value. -/
theorem ReadsBack.number? {x : Float} (h : ReadsBack x) :
    IsNumberText (doubleText x) ∧ Json.number? (doubleText x) = some (.number (some (.double x))) := by
  rw [ReadsBack, Json.read?, Document.read?, compact, String.toList_ofList, tokens?, compactChars] at h
  rcases doubleText_cases x with hnull | htext
  · -- what is not finite is read as null
    rw [hnull] at h
    cases Option.some.inj h
  · refine ⟨htext, ?_⟩
    have hrun := Scan.run_isNumberText htext []
    rw [List.append_nil, Scan.run, Scan.finish, List.reverse_reverse] at hrun
    rw [hrun] at h
    cases hnumber : Json.number? (doubleText x) with
    | none =>
        rw [hnumber] at h
        cases h
    | some token =>
        obtain ⟨spelling, -, rfl⟩ := Option.map_eq_some_iff.1 hnumber
        rw [hnumber] at h
        cases hvalue : spelling.value? with
        | none =>
            rw [hvalue] at h
            cases h
        | some value =>
            rw [hvalue] at h
            -- the only token is a number, which is the value of the text
            rcases Spelling.value?_cases hvalue with ⟨n, -, rfl⟩ | ⟨y, rfl⟩
            · cases Option.some.inj h
            · obtain rfl : y = x := Json.double.inj (Option.some.inj h)
              rfl

/-! ## Values -/

/-- The scanner finds the tokens of a value in its text, whatever follows. -/
def ScansAs (style : Style) (value : Json) : Prop :=
  ∀ level rest, Delimited rest →
    Scan.between.run (printed style level value ++ rest) =
      (Scan.between.run rest).map (value.tokens ++ ·)

namespace Scan

variable {style : Style}

private theorem map_append_append (tokens further : List Token) (found : Option (List Token)) :
    (found.map (further ++ ·)).map (tokens ++ ·) = found.map ((tokens ++ further) ++ ·) := by
  rw [Option.map_map]
  refine congrArg (fun after => found.map after) (funext fun more => ?_)
  rw [Function.comp_apply, List.append_assoc]

theorem delimited_printedItems (style : Style) (level : Nat) (items : List Json) (rest : List Char) :
    Delimited (printedItems style level items ++ rest) := by
  cases items with
  | nil =>
      rw [printedItems, List.append_assoc]
      exact (delimited_cons (by decide)).spaces (style.isSpace_of_mem_line level)
  | cons item items => exact delimited_cons (by decide)

theorem delimited_printedMembers (style : Style) (level : Nat) (members : List (String × Json))
    (rest : List Char) : Delimited (printedMembers style level members ++ rest) := by
  cases members with
  | nil =>
      rw [printedMembers, List.append_assoc]
      exact (delimited_cons (by decide)).spaces (style.isSpace_of_mem_line level)
  | cons member members => exact delimited_cons (by decide)

theorem run_printedItems {items : List Json} (h : ∀ item ∈ items, ScansAs style item) (level : Nat)
    (rest : List Char) :
    between.run (printedItems style level items ++ rest) =
      (between.run rest).map (itemTokens items ++ ·) := by
  induction items with
  | nil =>
      have hclose : between.next ']' = some ([.closeBracket], between) := rfl
      rw [printedItems, List.append_assoc, run_spaces (style.isSpace_of_mem_line level),
        List.singleton_append, run_token hclose]
      rfl
  | cons item items ih =>
      have hcomma : between.next ',' = some ([.comma], between) := rfl
      rw [printedItems, List.cons_append, run_token hcomma, List.append_assoc,
        run_spaces (style.isSpace_of_mem_line (level + 1)), List.append_assoc,
        h item List.mem_cons_self _ _ (delimited_printedItems style level items rest),
        ih fun other hother => h other (List.mem_cons_of_mem item hother), map_append_append]
      exact map_append_append [.comma] _ _

/-- A member is scanned as its name, a colon and its value. -/
theorem run_printedMember (name : String) {value : Json} (h : ScansAs style value) (level : Nat)
    {rest : List Char} (hrest : Delimited rest) :
    between.run (style.line level ++ (stringText name ++ (':' :: (style.gap ++
        (printed style level value ++ rest))))) =
      (between.run rest).map ((.string (some name) :: .colon :: value.tokens) ++ ·) := by
  have hcolon : between.next ':' = some ([.colon], between) := rfl
  rw [run_spaces (style.isSpace_of_mem_line level), run_stringText, run_token hcolon,
    run_spaces style.isSpace_of_mem_gap, h level rest hrest]
  exact (congrArg _ (map_append_append [.colon] _ _)).trans (map_append_append [.string name] _ _)

theorem run_printedMembers {members : List (String × Json)}
    (h : ∀ member ∈ members, ScansAs style member.2) (level : Nat) (rest : List Char) :
    between.run (printedMembers style level members ++ rest) =
      (between.run rest).map (memberTokens members ++ ·) := by
  induction members with
  | nil =>
      have hclose : between.next '}' = some ([.closeBrace], between) := rfl
      rw [printedMembers, List.append_assoc, run_spaces (style.isSpace_of_mem_line level),
        List.singleton_append, run_token hclose]
      rfl
  | cons member members ih =>
      have hcomma : between.next ',' = some ([.comma], between) := rfl
      have hmember := run_printedMember member.1 (h member List.mem_cons_self) (level + 1)
        (delimited_printedMembers style level members rest)
      rw [ih fun other hother => h other (List.mem_cons_of_mem member hother),
        map_append_append] at hmember
      simp only [printedMembers, List.cons_append, List.append_assoc]
      rw [run_token hcomma, hmember]
      exact map_append_append [.comma] _ _

end Scan

theorem scansAs_array {style : Style} {items : List Json} (h : ∀ item ∈ items, ScansAs style item) :
    ScansAs style (.array items) := by
  intro level rest _
  have hopen : Scan.between.next '[' = some ([.openBracket], .between) := rfl
  cases items with
  | nil =>
      have hclose : Scan.between.next ']' = some ([.closeBracket], .between) := rfl
      rw [printed, List.cons_append, List.singleton_append, Scan.run_token hopen,
        Scan.run_token hclose]
      exact Scan.map_append_append [.openBracket] [.closeBracket] _
  | cons item items =>
      rw [printed, List.cons_append, Scan.run_token hopen, List.append_assoc,
        Scan.run_spaces (style.isSpace_of_mem_line (level + 1)), List.append_assoc,
        h item List.mem_cons_self _ _ (Scan.delimited_printedItems style level items rest),
        Scan.run_printedItems (fun other hother => h other (List.mem_cons_of_mem item hother)),
        Scan.map_append_append]
      exact Scan.map_append_append [.openBracket] _ _

theorem scansAs_object {style : Style} {members : List (String × Json)}
    (h : ∀ member ∈ members, ScansAs style member.2) : ScansAs style (.object members) := by
  intro level rest _
  have hopen : Scan.between.next '{' = some ([.openBrace], .between) := rfl
  cases members with
  | nil =>
      have hclose : Scan.between.next '}' = some ([.closeBrace], .between) := rfl
      rw [printed, List.cons_append, List.singleton_append, Scan.run_token hopen,
        Scan.run_token hclose]
      exact Scan.map_append_append [.openBrace] [.closeBrace] _
  | cons member members =>
      have hmember := Scan.run_printedMember member.1 (h member List.mem_cons_self)
        (level + 1) (Scan.delimited_printedMembers style level members rest)
      rw [Scan.run_printedMembers
        (fun other hother => h other (List.mem_cons_of_mem member hother)),
        Scan.map_append_append] at hmember
      simp only [printed, List.cons_append, List.append_assoc]
      rw [Scan.run_token hopen, hmember]
      exact Scan.map_append_append [.openBrace] _ _

/-- **Scanning.**  In both texts of a legible value the scanner finds the tokens of the value. -/
theorem Legible.scansAs {depth : Nat} {value : Json} (h : Legible ReadsBack depth value)
    (style : Style) : ScansAs style value := by
  induction h with
  | null =>
      intro level rest hrest
      exact Scan.run_wordText rfl (List.all_eq_true.1 rfl) rfl hrest
  | bool _ value =>
      intro level rest hrest
      cases value with
      | true => exact Scan.run_wordText rfl (List.all_eq_true.1 rfl) rfl hrest
      | false => exact Scan.run_wordText rfl (List.all_eq_true.1 rfl) rfl hrest
  | integer _ hword =>
      intro level rest hrest
      exact Scan.run_numberText (isNumberText_integerText _) (number?_integerText hword) hrest
  | double _ hallowed =>
      intro level rest hrest
      exact Scan.run_numberText hallowed.number?.1 hallowed.number?.2 hrest
  | string _ value =>
      intro level rest _
      exact Scan.run_stringText value rest
  | array _ ih => exact scansAs_array ih
  | object _ ih => exact scansAs_object ih

end JobGraph.Json
