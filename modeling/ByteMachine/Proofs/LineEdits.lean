import ByteMachine.Proofs.ImageGrammar

/-!
What can be done to a text without changing its image. A line is read up to the character behind its
digits, and what follows there matters only if it is a digit too. So comments may go, and a carriage
return may stand at the end of a line or not. Line feeds keep what is before them apart from what is
behind them.
-/

namespace ByteMachine

namespace Text

theorem line_induction {motive : List Char → Prop}
    (last : ∀ line, lineFeed ∉ line → motive line)
    (feed : ∀ line text, lineFeed ∉ line → motive text → motive (line ++ lineFeed :: text))
    (text : List Char) : motive text := by
  obtain ⟨split, grammar⟩ := exists_lines text
  induction grammar with
  | nil => exact last [] List.not_mem_nil
  | last _ unbroken => exact last _ unbroken
  | feed unbroken _ _ ih => exact feed _ _ unbroken ih
  | @returnAndFeed line text _ unbroken _ ih =>
    rw [List.append_cons]
    exact feed _ _ (unbroken_return unbroken) ih

def withReturns (text : List Char) : List Char :=
  text.flatMap fun c => if c = lineFeed then [carriageReturn, lineFeed] else [c]

theorem withReturns_append (line text : List Char) :
    withReturns (line ++ lineFeed :: text) =
      withReturns line ++ carriageReturn :: lineFeed :: withReturns text := by
  simp [withReturns]

theorem withReturns_of_unbroken {line : List Char} (unbroken : lineFeed ∉ line) :
    withReturns line = line := by
  induction line with
  | nil => rfl
  | cons c line ih =>
    rw [List.mem_cons, not_or] at unbroken
    rw [withReturns, List.flatMap_cons, if_neg (Ne.symm unbroken.1)]
    exact congrArg (c :: ·) (ih unbroken.2)

def uncommented (line : List Char) : List Char := line.takeWhile fun c => c != '#'

/-- The second text is the first without what stands in each line from its first number sign on. A
carriage return before a line feed may be taken for part of the line or part of its end. -/
inductive Uncommented : List Char → List Char → Prop where
  | last {line : List Char} (unbroken : lineFeed ∉ line) : Uncommented line (uncommented line)
  | feed {line text bare : List Char} (unbroken : lineFeed ∉ line)
      (rest : Uncommented text bare) :
      Uncommented (line ++ lineFeed :: text) (uncommented line ++ lineFeed :: bare)
  | returnAndFeed {line text bare : List Char} (unbroken : lineFeed ∉ line)
      (rest : Uncommented text bare) :
      Uncommented (line ++ carriageReturn :: lineFeed :: text)
        (uncommented line ++ carriageReturn :: lineFeed :: bare)

theorem exists_uncommented (text : List Char) : ∃ bare, Uncommented text bare := by
  induction text using line_induction with
  | last line unbroken => exact ⟨_, .last unbroken⟩
  | feed line text unbroken ih =>
    obtain ⟨bare, rest⟩ := ih
    exact ⟨_, .feed unbroken rest⟩

end Text

namespace Image
open Text (isWhiteSpace lineFeed carriageReturn)

theorem sign_append {c : Char} (text suffix : List Char) :
    sign (c :: text ++ suffix) = ((sign (c :: text)).1, (sign (c :: text)).2 ++ suffix) := by
  by_cases minus : c = '-'
  · subst minus
    rfl
  · by_cases plus : c = '+'
    · subst plus
      rfl
    · rw [List.cons_append, Checked.sign_other minus plus, Checked.sign_other minus plus]
      rfl

/-- What stands behind a line adds nothing if it would not be read itself and is no digit. -/
theorem byteOfLine?_append {line suffix : List Char} (unread : byteOfLine? suffix = none)
    (noDigit : ∀ c ∈ suffix.head?, isDigit c = false) :
    byteOfLine? (line ++ suffix) = byteOfLine? line := by
  cases left : line.dropWhile isWhiteSpace with
  | nil =>
    have same : (line ++ suffix).dropWhile isWhiteSpace = suffix.dropWhile isWhiteSpace := by
      simp [List.dropWhile_append, left]
    have before : byteOfLine? line = none := by
      simp [byteOfLine?, left, sign]
    rw [before, ← unread, byteOfLine?, byteOfLine?, same]
  | cons c rest =>
    have same : (line ++ suffix).dropWhile isWhiteSpace = c :: rest ++ suffix := by
      simp [List.dropWhile_append, left]
    have digits (text : List Char) :
        (text ++ suffix).takeWhile isDigit = text.takeWhile isDigit := by
      induction text with
      | nil =>
        cases suffix with
        | nil => rfl
        | cons d suffix => simp [noDigit d rfl]
      | cons d text ih => rw [List.cons_append, List.takeWhile_cons, List.takeWhile_cons, ih]
    simp only [byteOfLine?, same, left, sign_append, digits]

theorem byteOfLine?_dropCarriageReturn (line : List Char) :
    byteOfLine? (Text.dropCarriageReturn line) = byteOfLine? line := by
  by_cases returned : line.getLast? = some Text.carriageReturn
  · obtain ⟨front, rfl⟩ := List.getLast?_eq_some_iff.mp returned
    rw [Text.dropCarriageReturn_append]
    refine (byteOfLine?_append (by decide) ?_).symm
    rintro c ⟨⟩
    rfl
  · rw [Text.dropCarriageReturn_other returned]

theorem ofText_eq (text : List Char) :
    ofText text = ⟨(text.splitOn lineFeed).filterMap byteOfLine?⟩ := by
  have nonempty := List.splitOn_ne_nil lineFeed text
  rw [ofText, Text.lines]
  generalize text.splitOn lineFeed = pieces at nonempty
  obtain ⟨front, last, rfl⟩ := (List.eq_nil_or_concat pieces).resolve_left nonempty
  have returns : byteOfLine? ∘ Text.dropCarriageReturn = byteOfLine? :=
    funext byteOfLine?_dropCarriageReturn
  -- an empty last piece is no line, and would give no byte
  have final : (if last.isEmpty then [] else [last]).filterMap byteOfLine? =
      [last].filterMap byteOfLine? := by
    cases last <;> rfl
  rw [List.concat_eq_append, List.getLastD_concat, List.dropLast_concat, List.filterMap_append,
    List.filterMap_append, List.filterMap_map, returns, final]

theorem bytes_ofText_append (front back : List Char) :
    (ofText (front ++ lineFeed :: back)).bytes = (ofText front).bytes ++ (ofText back).bytes := by
  simp only [ofText_eq, List.splitOn_append_cons_self, List.filterMap_append]

theorem bytes_ofText_of_unbroken {line : List Char} (unbroken : lineFeed ∉ line) :
    (ofText line).bytes = (byteOfLine? line).toList := by
  rw [ofText_eq, List.splitOn_eq_singleton unbroken]
  cases read : byteOfLine? line with
  | none => exact List.filterMap_cons_none read
  | some byte => exact List.filterMap_cons_some read

theorem bytes_ofText_feed {line : List Char} (unbroken : lineFeed ∉ line) (text : List Char) :
    (ofText (line ++ lineFeed :: text)).bytes =
      (byteOfLine? line).toList ++ (ofText text).bytes := by
  rw [bytes_ofText_append, bytes_ofText_of_unbroken unbroken]

theorem byteOfLine?_return (line : List Char) :
    byteOfLine? (line ++ [carriageReturn]) = byteOfLine? line := by
  rw [← byteOfLine?_dropCarriageReturn, Text.dropCarriageReturn_append]

theorem bytes_ofText_returnAndFeed {line : List Char} (unbroken : lineFeed ∉ line)
    (text : List Char) :
    (ofText (line ++ carriageReturn :: lineFeed :: text)).bytes =
      (byteOfLine? line).toList ++ (ofText text).bytes := by
  rw [List.append_cons, bytes_ofText_feed (Text.unbroken_return unbroken), byteOfLine?_return]

theorem byteOfLine?_unsigned {blanks text : List Char} (blank : ∀ c ∈ blanks, isWhiteSpace c = true)
    (other : ∀ c ∈ text.head?,
      isWhiteSpace c = false ∧ c ≠ '-' ∧ c ≠ '+' ∧ isDigit c = false) :
    byteOfLine? (blanks ++ text) = none := by
  have cut : (blanks ++ text).dropWhile isWhiteSpace = text :=
    (cut_append blank fun c first => (other c first).1).2
  rw [byteOfLine?, cut]
  cases text with
  | nil => rfl
  | cons c text =>
    obtain ⟨-, minus, plus, noDigit⟩ := other c rfl
    rw [Checked.sign_other minus plus]
    simp only [List.takeWhile_cons, noDigit]
    rfl

theorem byteOfLine?_uncommented (line : List Char) :
    byteOfLine? (Text.uncommented line) = byteOfLine? line := by
  -- what is cut off is empty or begins with a number sign, and gives no byte by itself
  have sharp : ∀ c ∈ (line.dropWhile fun c => c != '#').head?, c = '#' := by
    intro c first
    have other := List.head?_dropWhile_not (fun c => c != '#') line
    rw [first] at other
    simpa using other
  have unread : byteOfLine? (line.dropWhile fun c => c != '#') = none := by
    refine byteOfLine?_unsigned (List.forall_mem_nil _) ?_
    intro c first
    rw [sharp c first]
    decide
  have noDigit : ∀ c ∈ (line.dropWhile fun c => c != '#').head?, isDigit c = false := by
    intro c first
    rw [sharp c first]
    rfl
  have whole : byteOfLine? (Text.uncommented line ++ line.dropWhile fun c => c != '#') =
      byteOfLine? (Text.uncommented line) := byteOfLine?_append unread noDigit
  rw [Text.uncommented, List.takeWhile_append_dropWhile] at whole
  exact whole.symm

theorem bytes_withReturns (text : List Char) :
    (ofText (Text.withReturns text)).bytes = (ofText text).bytes := by
  induction text using Text.line_induction with
  | last line unbroken => rw [Text.withReturns_of_unbroken unbroken]
  | feed line text unbroken ih =>
    rw [Text.withReturns_append, Text.withReturns_of_unbroken unbroken,
      bytes_ofText_returnAndFeed unbroken, bytes_ofText_feed unbroken, ih]

theorem unbroken_uncommented {line : List Char} (unbroken : lineFeed ∉ line) :
    lineFeed ∉ Text.uncommented line :=
  fun member => unbroken ((List.takeWhile_sublist _).subset member)

theorem bytes_uncommented {text bare : List Char} (edited : Text.Uncommented text bare) :
    (ofText bare).bytes = (ofText text).bytes := by
  induction edited with
  | last unbroken =>
    rw [bytes_ofText_of_unbroken (unbroken_uncommented unbroken), byteOfLine?_uncommented,
      bytes_ofText_of_unbroken unbroken]
  | feed unbroken _ ih =>
    rw [bytes_ofText_feed (unbroken_uncommented unbroken), byteOfLine?_uncommented, ih,
      bytes_ofText_feed unbroken]
  | returnAndFeed unbroken _ ih =>
    rw [bytes_ofText_returnAndFeed (unbroken_uncommented unbroken), byteOfLine?_uncommented, ih,
      bytes_ofText_returnAndFeed unbroken]

end Image

/-- A line feed separates two texts, and the image does not tell how the lines of a text end,
whether the last one does, and what is written in comments. -/
theorem image_of_edited_text :
    (∀ front back, Image.ofText (front ++ Text.lineFeed :: back) =
      ⟨(Image.ofText front).bytes ++ (Image.ofText back).bytes⟩) ∧
    ∀ text,
      Image.ofText (Text.withReturns text) = Image.ofText text ∧
      Image.ofText (text ++ [Text.lineFeed]) = Image.ofText text ∧
      (∃ bare, Text.Uncommented text bare) ∧
      ∀ bare, Text.Uncommented text bare → Image.ofText bare = Image.ofText text := by
  have separated (front back : List Char) : Image.ofText (front ++ Text.lineFeed :: back) =
      ⟨(Image.ofText front).bytes ++ (Image.ofText back).bytes⟩ :=
    congrArg Image.mk (Image.bytes_ofText_append front back)
  refine ⟨separated, ?_⟩
  intro text
  refine ⟨congrArg Image.mk (Image.bytes_withReturns text), ?_, Text.exists_uncommented text, ?_⟩
  · rw [separated]
    exact congrArg Image.mk (List.append_nil _)
  · intro bare edited
    exact congrArg Image.mk (Image.bytes_uncommented edited)

def commented : List Char := "101 # five\r\n #1\n-1# last".toList

theorem image_of_edited_text_commented :
    Image.ofText "101 \r\n \n-1".toList = Image.ofText commented ∧
    Image.ofText "101 \n \n-1".toList = Image.ofText commented ∧
    Image.ofText (Text.withReturns commented) = ⟨[0x05, 0xFF]⟩ ∧
    Image.ofText (commented ++ Text.lineFeed :: commented) = ⟨[0x05, 0xFF, 0x05, 0xFF]⟩ := by
  obtain ⟨separated, edits⟩ := image_of_edited_text
  obtain ⟨returns, -, -, comments⟩ := edits commented
  have read : Image.ofText commented = ⟨[0x05, 0xFF]⟩ := by decide +kernel
  have others : Text.Uncommented " #1\n-1# last".toList " \n-1".toList :=
    @Text.Uncommented.feed " #1".toList _ _ (by decide)
      (@Text.Uncommented.last "-1# last".toList (by decide))
  refine ⟨comments _ ?_, comments _ ?_, returns.trans read, ?_⟩
  · exact @Text.Uncommented.returnAndFeed "101 # five".toList _ _ (by decide) others
  · exact @Text.Uncommented.feed "101 # five\r".toList _ _ (by decide) others
  · rw [separated, read]
    rfl

end ByteMachine
