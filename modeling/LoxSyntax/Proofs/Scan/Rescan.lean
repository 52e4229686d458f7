/-
# LoxSyntax.Proofs.Scan.Rescan -- every scan of a source is the first

A reader goes through a source one character at a time, and all it goes by are its marks. Wherever it moves it
goes PAST a stretch of the text that is ahead of it: its place and its line move on together by what the
stretch holds. With this, what it does with a piece is what `shapeAt` says of the text ahead (`read_eq`), one
step is one placed piece (`step_eq`), and all the steps from some place on are the pieces of the text ahead
(`scanFrom_eq`).

A scan sets every mark before it is looked at, but for the line of the last piece when there is none: the source
is empty then, and the line is still the first. So a scan leaves the same marks whatever was done before
(`Reading.scan_eq`), and it reports the same; what is held is a matter of the resets between the scans alone.
-/
import LoxSyntax.Proofs.Scan.Lines
import LoxSyntax.Scan.Reading

namespace LoxSyntax.Scan

open Number (isDigit)

namespace Marks

variable {text rest chars more : List Char} {c : Char} {m : Marks} {class' : Char → Bool}

/-! ## The text ahead -/

/-- The text from the place of a reader on. -/
def ahead (text : List Char) (m : Marks) : List Char := text.drop m.current

/-- The marks of a reader that has gone over a stretch of text. -/
def past (m : Marks) (chars : List Char) : Marks :=
  { m with current := m.current + chars.length, line := m.line + Text.newlines chars }

theorem past_nil (m : Marks) : m.past [] = m := rfl

theorem past_past (m : Marks) (chars more : List Char) : (m.past chars).past more = m.past (chars ++ more) := by
  unfold past
  rw [List.length_append, Text.newlines_append, Nat.add_assoc, Nat.add_assoc]

theorem ahead_past (h : m.ahead text = chars ++ rest) : (m.past chars).ahead text = rest := by
  show text.drop (m.current + chars.length) = rest
  rw [← List.drop_drop]
  show (m.ahead text).drop chars.length = rest
  rw [h, List.drop_left]

theorem ahead_eq_cons (h : m.current < text.length) : m.ahead text = text[m.current] :: m.advance.ahead text :=
  List.drop_eq_getElem_cons h

theorem ahead_eq_nil (h : ¬m.current < text.length) : m.ahead text = [] :=
  List.drop_of_length_le (Nat.le_of_not_lt h)

theorem lt_length_of_ahead (h : m.ahead text = c :: rest) : m.current < text.length := by
  by_contra hend
  rw [ahead_eq_nil hend] at h
  cases h

theorem peek?_eq (text : List Char) (m : Marks) : m.peek? text = (m.ahead text).head? := List.head?_drop.symm

theorem peekNext?_eq (text : List Char) (m : Marks) : m.peekNext? text = (m.ahead text).tail.head? := by
  unfold ahead
  rw [List.tail_drop]
  exact List.head?_drop.symm

theorem advance_eq_past (h : c ≠ '\n') (m : Marks) : m.advance = m.past [c] := by
  have hnone : Text.newlines [c] = 0 := List.count_eq_zero.2 (by simpa using h.symm)
  rw [past, hnone]
  rfl

theorem cross_eq_past (c : Char) (m : Marks) : m.cross c = m.past [c] := by
  unfold cross past
  by_cases hc : c = '\n'
  · subst hc
    rfl
  · rw [if_neg hc, Text.newlines, List.count_eq_zero.2 (by simpa using Ne.symm hc)]
    rfl

/-! ## Stretches -/

/-- Where no line feed is of the class, lines need not be counted. -/
theorem advanceWhile_eq (hclass : class' '\n' = false) (text : List Char) (m : Marks) :
    m.advanceWhile class' text = m.past ((m.ahead text).takeWhile class') := by
  fun_induction advanceWhile class' text m with
  | case1 m hlt hc ih =>
      have hne : text[m.current] ≠ '\n' := by
        intro heq
        rw [heq, hclass] at hc
        cases hc
      rw [ih, ahead_eq_cons hlt, List.takeWhile_cons_of_pos hc, advance_eq_past hne m, past_past]
      rfl
  | case2 m hlt hc => rw [ahead_eq_cons hlt, List.takeWhile_cons_of_neg hc, past_nil]
  | case3 m hend => rw [ahead_eq_nil hend, List.takeWhile_nil, past_nil]

theorem crossWhile_eq (class' : Char → Bool) (text : List Char) (m : Marks) :
    m.crossWhile class' text = m.past ((m.ahead text).takeWhile class') := by
  fun_induction crossWhile class' text m with
  | case1 m hlt hc ih =>
      have hahead : (m.cross text[m.current]).ahead text = m.advance.ahead text := rfl
      rw [ih, hahead, ahead_eq_cons hlt, List.takeWhile_cons_of_pos hc, cross_eq_past, past_past]
      rfl
  | case2 m hlt hc => rw [ahead_eq_cons hlt, List.takeWhile_cons_of_neg hc, past_nil]
  | case3 m hend => rw [ahead_eq_nil hend, List.takeWhile_nil, past_nil]

theorem crossComment_eq (text : List Char) (m : Marks) :
    m.crossComment text =
      match blockLength? (m.ahead text) with
      | some count => (.comment, m.past ((m.ahead text).take count))
      | none => (.openComment, m.past (m.ahead text)) := by
  fun_induction crossComment text m with
  | case1 m hlt hmark =>
      obtain ⟨hstar, hslash⟩ := hmark
      have htail : m.advance.ahead text = '/' :: m.advance.advance.ahead text := by
        rw [peekNext?_eq, ahead_eq_cons hlt] at hslash
        obtain ⟨after, hafter⟩ := List.head?_eq_some_iff.1 hslash
        rw [List.tail_cons] at hafter
        have hnext := lt_length_of_ahead hafter
        rw [ahead_eq_cons hnext] at hafter ⊢
        rw [(List.cons.inj hafter).1]
      rw [ahead_eq_cons hlt, hstar, htail]
      rfl
  | case2 m hlt hmark ih =>
      have hahead : (m.cross text[m.current]).ahead text = m.advance.ahead text := rfl
      have hopen : ¬(text[m.current] = '*' ∧ BeforeSlash (m.advance.ahead text)) := by
        rintro ⟨hstar, after, hafter⟩
        refine hmark ⟨hstar, ?_⟩
        rw [peekNext?_eq, ahead_eq_cons hlt, List.tail_cons, hafter]
        rfl
      rw [ih, hahead, ahead_eq_cons hlt, blockLength?_cons hopen, cross_eq_past]
      cases blockLength? (m.advance.ahead text) with
      | none => simp only [Option.map_none, past_past, List.singleton_append]
      | some count => simp only [Option.map_some, List.take_succ_cons, past_past, List.singleton_append]
  | case3 m hend =>
      rw [ahead_eq_nil hend]
      rfl

/-! ## Pieces -/

/-- A shape, and the marks of a reader that has gone over as many characters as it takes of the text ahead. -/
def takes (text : List Char) (m : Marks) (shape : Shape × Nat) : Shape × Marks :=
  (shape.1, m.past ((m.ahead text).take shape.2))

theorem takes_length (h : m.ahead text = chars ++ rest) (shape : Shape) :
    m.takes text (shape, chars.length) = (shape, m.past chars) := by
  rw [takes, h, List.take_left]

theorem readSlash_eq (text : List Char) (m : Marks) :
    m.readSlash text = m.takes text (slashAt (m.ahead text)) := by
  unfold readSlash
  rw [peek?_eq]
  by_cases hline : (m.ahead text).head? = some '/'
  · obtain ⟨after, hafter⟩ := List.head?_eq_some_iff.1 hline
    have hbehind : (m.past ['/']).ahead text = after := ahead_past hafter
    rw [if_pos hline, advance_eq_past (c := '/') (by decide), advanceWhile_eq (by decide), hbehind, past_past,
      takes, hafter, slashAt, List.take_succ_cons, take_length_takeWhile]
    rfl
  · rw [if_neg hline]
    by_cases hblock : (m.ahead text).head? = some '*'
    · obtain ⟨after, hafter⟩ := List.head?_eq_some_iff.1 hblock
      have hbehind : (m.past ['*']).ahead text = after := ahead_past hafter
      rw [if_pos hblock, advance_eq_past (c := '*') (by decide), crossComment_eq, hbehind, takes, hafter, slashAt]
      cases blockLength? after with
      | none => simp only [past_past, List.take_succ_cons, List.take_length, List.singleton_append]
      | some count => simp only [past_past, List.take_succ_cons, List.singleton_append]
    · rw [if_neg hblock, slashAt_slash hline hblock]
      rfl

theorem readString_eq (text : List Char) (m : Marks) :
    m.readString text = m.takes text (stringAt (m.ahead text)) := by
  have hsplit := (List.takeWhile_append_dropWhile (p := (· ≠ Text.doubleQuote)) (l := m.ahead text)).symm
  have hno := not_mem_takeWhile_ne Text.doubleQuote (m.ahead text)
  have hstop := stopsAt_dropWhile (· ≠ Text.doubleQuote) (m.ahead text)
  unfold readString
  rw [crossWhile_eq]
  generalize (m.ahead text).takeWhile (· ≠ Text.doubleQuote) = inner at hsplit hno ⊢
  generalize (m.ahead text).dropWhile (· ≠ Text.doubleQuote) = after at hsplit hstop
  have hbehind := ahead_past hsplit
  cases after with
  | nil =>
      have hend : ¬(m.past inner).current < text.length := by
        intro hlt
        rw [ahead_eq_cons hlt] at hbehind
        cases hbehind
      have hall : m.ahead text = inner := by rw [hsplit, List.append_nil]
      rw [hall, stringAt_open hno, takes_length hsplit]
      exact if_neg hend
  | cons d after =>
      -- what stops the string is its closing quote
      obtain rfl : d = Text.doubleQuote := by simpa using hstop d rfl
      have hclosed : m.ahead text = (inner ++ [Text.doubleQuote]) ++ after := by
        rw [hsplit, List.append_assoc]
        rfl
      have hstring : stringAt (m.ahead text) = (.string, (inner ++ [Text.doubleQuote]).length) := by
        rw [hclosed]
        exact stringAt_closed hno after
      rw [hstring, takes_length hclosed, ← past_past, ← advance_eq_past (by decide)]
      exact if_pos (lt_length_of_ahead hbehind)

theorem stopsAt_iff (class' : Char → Bool) (text : List Char) :
    StopsAt class' text ↔ ¬ text.head?.any class' = true := by
  cases text with
  | nil => simp [StopsAt]
  | cons c text => simp [StopsAt]

theorem readNumeral_eq (text : List Char) (m : Marks) :
    (Shape.numeral, m.readNumeral text) = m.takes text (.numeral, numeralLength (m.ahead text)) := by
  have hsplit := (List.takeWhile_append_dropWhile (p := isDigit) (l := m.ahead text)).symm
  have hall : ((m.ahead text).takeWhile isDigit).all isDigit = true := List.all_takeWhile
  have hstop := stopsAt_dropWhile isDigit (m.ahead text)
  unfold readNumeral
  rw [advanceWhile_eq (by decide)]
  generalize (m.ahead text).takeWhile isDigit = whole at hsplit hall ⊢
  generalize (m.ahead text).dropWhile isDigit = after at hsplit hstop
  have hbehind := ahead_past hsplit
  dsimp only
  rw [peek?_eq, peekNext?_eq, hbehind]
  by_cases hpoint : after.head? = some '.' ∧ after.tail.head?.any isDigit = true
  · obtain ⟨hhead, hdigit⟩ := hpoint
    obtain ⟨more, rfl⟩ := List.head?_eq_some_iff.1 hhead
    have hmore : ((m.past whole).past ['.']).ahead text = more := ahead_past hbehind
    have hsome : more.takeWhile isDigit ≠ [] := by
      intro hnone
      rw [← List.takeWhile_append_dropWhile (p := isDigit) (l := more), hnone] at hdigit
      exact (stopsAt_iff _ _).1 (stopsAt_dropWhile isDigit more) hdigit
    have hfraction : m.ahead text = (whole ++ '.' :: more.takeWhile isDigit) ++ more.dropWhile isDigit := by
      rw [hsplit, List.append_assoc, List.cons_append, List.takeWhile_append_dropWhile]
    have hlength : numeralLength (m.ahead text) = (whole ++ '.' :: more.takeWhile isDigit).length := by
      rw [hfraction]
      exact numeralLength_fraction hall hsome List.all_takeWhile (stopsAt_dropWhile _ _)
    rw [if_pos ⟨rfl, hdigit⟩, hlength, takes_length hfraction, advance_eq_past (c := '.') (by decide),
      advanceWhile_eq (by decide), hmore, past_past, past_past]
    rfl
  · have hlength : numeralLength (m.ahead text) = whole.length := by
      rw [hsplit]
      refine numeralLength_whole hall hstop ?_
      rintro more rfl
      exact (stopsAt_iff _ _).2 fun hdigit => hpoint ⟨rfl, hdigit⟩
    rw [if_neg hpoint, hlength, takes_length hsplit]

/-- What a reader does behind the first character of a piece is what the shape of the piece asks for. -/
theorem read_eq_takes (hc : c ≠ '\n') (text : List Char) (m : Marks) :
    m.read text c = m.takes text (shapeAt c (m.ahead text)) := by
  unfold read shapeAt
  cases Kind.single.lookup c with
  | some kind => rfl
  | none =>
      cases Kind.equalSuffix.lookup c with
      | some kinds =>
          dsimp only
          rw [peek?_eq]
          by_cases hequal : (m.ahead text).head? = some '='
          · obtain ⟨after, hafter⟩ := List.head?_eq_some_iff.1 hequal
            rw [if_pos hequal, if_pos hequal, takes, hafter, advance_eq_past (c := '=') (by decide)]
            rfl
          · rw [if_neg hequal, if_neg hequal]
            rfl
      | none =>
          dsimp only
          by_cases hslash : c = '/'
          · rw [if_pos hslash, if_pos hslash]
            exact readSlash_eq text m
          rw [if_neg hslash, if_neg hslash]
          by_cases hblank : c ∈ blanks
          · rw [if_pos hblank, if_pos hblank]
            rfl
          rw [if_neg hblank, if_neg hblank, if_neg hc, if_neg hc]
          by_cases hquote : c = Text.doubleQuote
          · rw [if_pos hquote, if_pos hquote]
            exact readString_eq text m
          rw [if_neg hquote, if_neg hquote]
          by_cases hdigit : isDigit c = true
          · rw [if_pos hdigit, if_pos hdigit]
            exact readNumeral_eq text m
          rw [if_neg hdigit, if_neg hdigit]
          by_cases hletter : isLetter c = true
          · rw [if_pos hletter, if_pos hletter, advanceWhile_eq (by decide), takes, take_length_takeWhile]
          · rw [if_neg hletter, if_neg hletter]
            rfl

/-- A reader goes over a piece as a whole, and over no more. -/
theorem read_eq (h : m.ahead text = c :: rest) :
    m.advance.read text c = ((pieceAt c rest).shape, m.past (pieceAt c rest).chars) := by
  by_cases hc : c = '\n'
  · subst hc
    rfl
  · have hbehind : (m.past [c]).ahead text = rest := ahead_past h
    rw [advance_eq_past hc, read_eq_takes hc, hbehind, takes, hbehind, past_past]
    rfl

/-- A stray character is no line feed. -/
theorem newlines_of_stray (h : (pieceAt c rest).shape = .stray) : (pieceAt c rest).newlines = 0 := by
  have hmunch := munch_shapeAt c rest
  have hshape : (shapeAt c rest).1 = .stray := h
  rw [hshape] at hmunch
  show Text.newlines (c :: rest.take (shapeAt c rest).2) = 0
  generalize c :: rest.take (shapeAt c rest).2 = chars at hmunch
  cases hmunch with
  | stray hstray => exact List.count_eq_zero.2 (by simpa using hstray.noNewline.symm)

/-- What lies between the marks of a piece is the piece. -/
theorem piece_past (h : m.ahead text = c :: rest) :
    (m.beginPiece.past (pieceAt c rest).chars).piece text (pieceAt c rest).shape c =
      ⟨pieceAt c rest, m.line, m.current⟩ := by
  have hrest : text.drop (m.current + 1) = rest := by
    show (m.past [c]).ahead text = rest
    exact ahead_past h
  have hcount : m.current + (pieceAt c rest).chars.length - (m.current + 1) =
      (rest.take (shapeAt c rest).2).length := by
    show m.current + ((rest.take (shapeAt c rest).2).length + 1) - (m.current + 1) = _
    omega
  have hothers : text.extract (m.current + 1) (m.current + (pieceAt c rest).chars.length) =
      (pieceAt c rest).others := by
    rw [List.extract_eq_take_drop, hrest, hcount, List.length_take, ← List.take_eq_take_min]
    rfl
  exact congrArg (fun others => Placed.mk ⟨(pieceAt c rest).shape, c, others⟩ m.line m.current) hothers

/-- The line that a reader has come to is the one that the fault of the piece is on. -/
theorem fault?_past (c : Char) (rest : List Char) (m : Marks) :
    (m.beginPiece.past (pieceAt c rest).chars).fault? (pieceAt c rest).shape c =
      (Placed.mk (pieceAt c rest) m.line m.current).fault? := by
  unfold fault? Placed.fault?
  cases hshape : (pieceAt c rest).shape with
  | stray =>
      show some (Fault.unexpectedCharacter c (m.line + (pieceAt c rest).newlines : Nat)) = _
      rw [newlines_of_stray hshape]
      rfl
  | openString => rfl
  | mark kind | string | numeral | word | blank | newline | comment | openComment => rfl

/-- The marks behind pieces that were found from some marks on, and that are the text `chars`. -/
def behind (m : Marks) (found : List Placed) (chars : List Char) : Marks :=
  { start := (found.getLast?.map (·.offset)).getD m.start
    current := m.current + chars.length
    line := m.line + Text.newlines chars
    startLine := (found.getLast?.map (·.line)).getD m.startLine
    tokens := m.tokens ++ found.filterMap Placed.token? }

/-- The marks of the piece before are overwritten by those of the next. -/
theorem behind_cons (m : Marks) (here : Placed) (found : List Placed) (chars more : List Char) :
    (m.behind [here] chars).behind found more = m.behind (here :: found) (chars ++ more) := by
  have htokens : (here :: found).filterMap Placed.token? =
      [here].filterMap Placed.token? ++ found.filterMap Placed.token? := List.filterMap_append (l := [here])
  have hlast : (here :: found).getLast? = some (found.getLast?.getD here) := List.getLast?_cons
  have hfirst : [here].getLast? = some here := rfl
  unfold behind
  rw [htokens, hlast, hfirst, List.length_append, Text.newlines_append]
  cases found.getLast? with
  | none => simp only [Nat.add_assoc, List.append_assoc]; rfl
  | some last => simp only [Nat.add_assoc, List.append_assoc]; rfl

/-- One step reads one piece, placed where the reader stands. Where the piece before it began does not matter,
nor on which line. -/
theorem step_eq (h : m.ahead text = c :: rest) :
    let here : Placed := ⟨pieceAt c rest, m.line, m.current⟩
    m.step text c = (m.behind [here] here.piece.chars, here.fault?) := by
  intro here
  have hread : m.beginPiece.advance.read text c = _ := read_eq (m := m.beginPiece) h
  have htoken : here.token?.toList = [here].filterMap Placed.token? := by
    cases hsome : here.token? with
    | none => rw [List.filterMap_cons_none hsome]; rfl
    | some t => rw [List.filterMap_cons_some hsome]; rfl
  unfold step
  simp only [hread, piece_past h, fault?_past]
  rw [behind, ← htoken]
  rfl

/-! ## The whole text -/

/-- The steps from some marks on read the pieces of the text ahead. -/
theorem scanFrom_eq (h : m.ahead text = rest) (reporter : Reporter) :
    let found := place m.line m.current (pieces rest)
    m.scanFrom text reporter =
      (m.behind found rest, reporter.reportAll ((found.filterMap Placed.fault?).map Fault.diagnostic)) := by
  induction rest using pieces.induct generalizing m reporter with
  | case1 =>
      have hend : ¬m.current < text.length := by
        intro hlt
        rw [ahead_eq_cons hlt] at h
        cases h
      rw [scanFrom, dif_neg hend, pieces]
      simp [place, behind, Reporter.reportAll]
  | case2 c rest ih =>
      have hlt := lt_length_of_ahead h
      have hc : text[m.current] = c := by
        rw [ahead_eq_cons hlt] at h
        exact (List.cons.inj h).1
      have hsplit : c :: rest = (pieceAt c rest).chars ++ rest.drop (shapeAt c rest).2 := by
        show _ = c :: (rest.take (shapeAt c rest).2 ++ _)
        rw [List.take_append_drop]
      let here : Placed := ⟨pieceAt c rest, m.line, m.current⟩
      let next := m.behind [here] here.piece.chars
      have hstep : m.step text c = (next, here.fault?) := step_eq h
      have hnext : next.ahead text = rest.drop (shapeAt c rest).2 := ahead_past (h.trans hsplit)
      have hplace : place m.line m.current (pieces (c :: rest)) =
          here :: place next.line next.current (pieces (rest.drop (shapeAt c rest).2)) := by
        rw [pieces, place]
        rfl
      rw [scanFrom, dif_pos hlt, hc, hstep, ih hnext, hplace, Reporter.reportAll_reportAll, ← List.map_append]
      dsimp only
      rw [behind_cons, ← hsplit]
      cases hfault : here.fault? with
      | none => rw [List.filterMap_cons_none hfault]; rfl
      | some fault => rw [List.filterMap_cons_some hfault]; rfl

end Marks

namespace Reading

variable {r : Reading}

/-! ## One scan -/

theorem eq_empty_of_no_piece {source : String} (h : (placed source).getLast? = none) : source = "" := by
  have htext := flatMap_placed source
  rw [List.getLast?_eq_none_iff.1 h] at htext
  exact String.toList_eq_nil_iff.1 htext.symm

/-- Where there is no piece to be found, the line of the last piece is the first line. -/
def IsSound (r : Reading) : Prop := r.source = "" → r.marks.startLine = 1

theorem close_behind_rewind {source : String} {m : Marks} (h : source = "" → m.startLine = 1) :
    (m.rewind.behind (placed source) source.toList).close = Marks.finished source := by
  have hline : ((placed source).getLast?.map (·.line)).getD m.startLine =
      ((placed source).getLast?.map (·.line)).getD 1 := by
    cases hlast : (placed source).getLast? with
    | none => exact h (eq_empty_of_no_piece hlast)
    | some last => rfl
  unfold Marks.behind Marks.rewind Marks.close Marks.finished
  simp only [hline, Nat.zero_add, List.nil_append]
  rfl

/-- A scan of a source leaves the same marks whatever the marks were before, and reports the same. -/
theorem scan_eq (h : r.IsSound) :
    r.scan = ⟨r.source, .finished r.source, r.reporter.reportAll (diagnostics r.source)⟩ := by
  have hscan : r.marks.rewind.scanFrom r.source.toList r.reporter =
      (r.marks.rewind.behind (placed r.source) r.source.toList, r.reporter.reportAll (diagnostics r.source)) :=
    Marks.scanFrom_eq (m := r.marks.rewind) rfl r.reporter
  unfold scan
  rw [hscan]
  dsimp only
  rw [close_behind_rewind h]

theorem isSound_ofSource (source : String) (reporter : Reporter) : (ofSource source reporter).IsSound :=
  fun _ => rfl

/-! ## Scans and resets -/

variable {actions : List Action}

theorem IsSound.act (h : r.IsSound) (action : Action) : (r.act action).IsSound := by
  cases action with
  | scan =>
      intro hempty
      have hsource : r.source = "" := hempty
      show r.scan.marks.startLine = 1
      rw [scan_eq h, hsource]
      simp [Marks.finished, placed, pieces, place]
  | reset => exact h

theorem source_act (r : Reading) (action : Action) : (r.act action).source = r.source := by
  cases action with
  | scan => exact source_scan r
  | reset => rfl

theorem actAll_concat (r : Reading) (actions : List Action) (action : Action) :
    r.actAll (actions ++ [action]) = (r.actAll actions).act action := by
  unfold actAll
  rw [List.foldl_append]
  rfl

theorem IsSound.actAll (h : r.IsSound) (actions : List Action) : (r.actAll actions).IsSound := by
  induction actions using List.reverseRecOn with
  | nil => exact h
  | append_singleton actions action ih =>
      rw [actAll_concat]
      exact ih.act action

theorem source_actAll (r : Reading) (actions : List Action) : (r.actAll actions).source = r.source := by
  induction actions using List.reverseRecOn with
  | nil => rfl
  | append_singleton actions action ih => rw [actAll_concat, source_act, ih]

theorem scansSinceReset_scan (actions : List Action) :
    scansSinceReset (actions ++ [.scan]) = scansSinceReset actions + 1 := by simp [scansSinceReset]

theorem scansSinceReset_reset (actions : List Action) : scansSinceReset (actions ++ [.reset]) = 0 := by
  simp [scansSinceReset]

/-- The diagnostics that were held before the first scan and have not been forgotten. -/
def kept (reporter : Reporter) (actions : List Action) : List Diagnostic :=
  if .reset ∈ actions then [] else reporter.held

/-- What is held is what was held before, unless it was forgotten, and a copy of the diagnostics of the source
for each scan that was not forgotten. -/
theorem held_actAll (h : r.IsSound) (actions : List Action) :
    (r.actAll actions).reporter.held =
      kept r.reporter actions ++ (List.replicate (scansSinceReset actions) (diagnostics r.source)).flatten := by
  induction actions using List.reverseRecOn with
  | nil => exact (List.append_nil _).symm
  | append_singleton actions action ih =>
      rw [actAll_concat]
      cases action with
      | scan =>
          have hkept : kept r.reporter (actions ++ [.scan]) = kept r.reporter actions := by simp [kept]
          have hscan := scan_eq (h.actAll actions)
          rw [source_actAll] at hscan
          show (r.actAll actions).scan.reporter.held = _
          rw [hscan, hkept, scansSinceReset_scan, List.replicate_succ', List.flatten_append, ← List.append_assoc, ← ih]
          simp [Reporter.reportAll]
      | reset =>
          have hkept : kept r.reporter (actions ++ [.reset]) = [] := by simp [kept]
          rw [hkept, scansSinceReset_reset]
          rfl

/-- Scanning again changes nothing but what is held. Whatever scans and resets came before, a scan leaves all the
marks that the first scan leaves, which are those of a source that has been read to its end. It adds a copy of
the diagnostics that the first scan reports: for each scan behind the last reset, this one included, one copy is
held, behind what was held before the first scan if there was no reset. -/
theorem rescan_changes_only_reports (source : String) (reporter : Reporter) (actions : List Action) :
    let first := (ofSource source reporter).scan
    let again := ((ofSource source reporter).actAll actions).scan
    again.marks = first.marks ∧ first.marks = .finished source ∧ first.marks.current = source.length ∧
      first.reporter.held = reporter.held ++ diagnostics source ∧
      again.reporter.held = (if .reset ∈ actions then [] else reporter.held) ++
        (List.replicate (scansSinceReset (actions ++ [.scan])) (diagnostics source)).flatten := by
  intro first again
  have hsound := isSound_ofSource source reporter
  have hfirst : first = ⟨source, .finished source, reporter.reportAll (diagnostics source)⟩ := scan_eq hsound
  have hagain := scan_eq (hsound.actAll actions)
  have hheld := held_actAll hsound (actions ++ [.scan])
  rw [source_actAll] at hagain
  rw [actAll_concat] at hheld
  refine ⟨?_, ?_, ?_, ?_, ?_⟩
  · show ((ofSource source reporter).actAll actions).scan.marks = first.marks
    rw [hagain, hfirst]
    rfl
  · rw [hfirst]
  · rw [hfirst]
    exact String.length_toList
  · rw [hfirst]
    rfl
  · have hkept : kept reporter (actions ++ [.scan]) = if .reset ∈ actions then [] else reporter.held := by
      simp [kept]
    rw [← hkept]
    exact hheld

end Reading

end LoxSyntax.Scan
