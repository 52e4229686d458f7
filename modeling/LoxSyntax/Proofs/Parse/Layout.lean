/-
# LoxSyntax.Proofs.Parse.Layout -- layout does not matter

Lay the lexemes of a source out anew, with any gaps between them: the new text has the tokens of the
source but for the lines they stand on, and no faults, whatever faults the source had. The parser does not
look at lines, so it makes the same tree of both, or refuses both for the same cause at the same token.
-/
import LoxSyntax.Proofs.Parse.Unplaced
import LoxSyntax.Proofs.Scan.Layout

namespace LoxSyntax

namespace Scan

variable {source text : String}

/-- The tokens of a source apart from the end of the input are those that stand before it. -/
theorem filter_not_isEnd (source : String) :
    (tokens source).filter (fun t => !t.isEnd) = (sequence source).body := by
  have hbody : ∀ t ∈ (sequence source).body, t.isEnd = false := by
    intro t ht
    have hkind := (tokens_of_covers (covers_pieces source.toList) 1 0).2 t ht
    simpa [Token.isEnd] using hkind
  have hall : (sequence source).body.filter (fun t => !t.isEnd) = (sequence source).body :=
    List.filter_eq_self.2 fun t ht => by rw [hbody t ht]; rfl
  rw [tokens, Sequence.toList, List.filter_append, hall, List.filter_singleton,
    (sequence source).last_isEnd]
  simp

/-- What the lexemes of a source are laid out in is read as the source, but for the lines. -/
theorem sequence_unplaced_of_laidOut
    (h : LaidOut (lexemesOf ((tokens source).filter fun t => !t.isEnd)) text.toList) :
    (sequence text).unplaced = (sequence source).unplaced ∧ diagnostics text = [] := by
  rw [filter_not_isEnd] at h
  obtain ⟨hbody, hdiagnostics⟩ := scan_laidOut h (legible_of_mem_body source)
  exact ⟨Sequence.eq_of_parts hbody rfl, hdiagnostics⟩

end Scan

namespace Parser

/-- A parser of a source without faults reports nothing before it starts. -/
theorem ofSource_of_faultless {source : String} (h : Scan.diagnostics source = []) (reporter : Reporter) :
    ofSource source reporter = start (Scan.sequence source) reporter := by
  rw [ofSource, h, Reporter.reportAll, List.append_nil]

/-- Parsers of sequences that agree up to lines come to the same, up to lines. -/
theorem parse_start_unplaced {s s' : Sequence} (h : s.unplaced = s'.unplaced) (limit : Option Nat)
    (reporter : Reporter) :
    ((start s reporter).parse limit).1.map Expr.unplaced =
        ((start s' reporter).parse limit).1.map Expr.unplaced ∧
      ((start s reporter).parse limit).2.unplaced = ((start s' reporter).parse limit).2.unplaced := by
  have hstart : (start s reporter).unplaced = (start s' reporter).unplaced := by
    rw [Parser.unplaced, Parser.unplaced, start, start, Cursor.start, Cursor.start, Cursor.unplaced,
      Cursor.unplaced, h]
  have hparse := congrArg (parse limit) hstart
  rw [parse_unplaced, parse_unplaced] at hparse
  exact Prod.mk.inj hparse

/-- Layout does not matter. A text in which the lexemes of a source are laid out, with gaps between them,
has the tokens of the source up to their lines, and no faults. Parsing it comes to what parsing the tokens
of the source comes to: the same tree up to lines, with the same prints, or none, and the same diagnostics
up to lines. -/
theorem parse_laidOut (limit : Option Nat) (source text : String) (echoes : Bool)
    (h : Scan.LaidOut (Scan.lexemesOf ((Scan.tokens source).filter fun t => !t.isEnd)) text.toList) :
    (Scan.tokens text).map Token.unplaced = (Scan.tokens source).map Token.unplaced ∧
    Scan.diagnostics text = [] ∧
    let read := (ofSource text (.empty echoes)).parse limit
    let expected := (start (Scan.sequence source) (.empty echoes)).parse limit
    read.1.map Expr.unplaced = expected.1.map Expr.unplaced ∧
      read.1.map Expr.parenthesized = expected.1.map Expr.parenthesized ∧
      read.1.map Expr.reversePolish = expected.1.map Expr.reversePolish ∧
      read.2.reporter.held.map Diagnostic.unplaced =
        expected.2.reporter.held.map Diagnostic.unplaced := by
  obtain ⟨hsequence, hfaultless⟩ := Scan.sequence_unplaced_of_laidOut h
  have htokens : (Scan.tokens text).map Token.unplaced = (Scan.tokens source).map Token.unplaced := by
    rw [Scan.tokens, Scan.tokens, ← Sequence.toList_unplaced, ← Sequence.toList_unplaced, hsequence]
  refine ⟨htokens, hfaultless, ?_⟩
  rw [ofSource_of_faultless hfaultless]
  obtain ⟨htree, hparser⟩ := parse_start_unplaced hsequence limit (.empty echoes)
  exact ⟨htree, Expr.map_eq_of_map_unplaced Expr.parenthesized_unplaced htree,
    Expr.map_eq_of_map_unplaced Expr.reversePolish_unplaced htree,
    congrArg (fun p => p.reporter.held) hparser⟩

/-- The source is `nil<"//"@`, whose last character is at fault. Its lexemes are laid out behind a comment
with a quote in it, over two lines, and before a comment with a parenthesis in it. -/
theorem comparison_is_laid_out :
    let string := [Text.doubleQuote, '/', '/', Text.doubleQuote]
    let source := String.ofList (['n', 'i', 'l', '<'] ++ string ++ ['@'])
    let text := String.ofList (('/' :: '*' :: [Text.doubleQuote] ++ '*' :: '/' :: []) ++ ['n', 'i', 'l'] ++
      ([' ', '\n'] ++ ['<'] ++ (['\t'] ++ string ++ (' ' :: ('/' :: '/' :: [')'] ++ '\n' :: [])))))
    Scan.LaidOut (Scan.lexemesOf ((Scan.tokens source).filter fun t => !t.isEnd)) text.toList ∧
      Scan.diagnostics text = [] ∧
      ((ofSource text (.empty false)).parse Parse.defaultLimit).1.map Expr.parenthesized =
        some "(< nil //)" := by
  intro string source text
  have hlexemes : Scan.lexemesOf ((Scan.tokens source).filter fun t => !t.isEnd) =
      [['n', 'i', 'l'], ['<'], string] := by cbv
  have hlaid : Scan.LaidOut (Scan.lexemesOf ((Scan.tokens source).filter fun t => !t.isEnd))
      text.toList := by
    rw [hlexemes, String.toList_ofList]
    have hopen : ¬ Scan.Closes ([Text.doubleQuote] ++ ['*']) := by
      simp [Scan.closes_cons, Scan.not_closes_nil, Scan.BeforeSlash]
    have hspace : ' ' ∈ Scan.blanks := by decide
    have htab : '\t' ∈ Scan.blanks := by decide
    have hcomment : Scan.Filler (' ' :: ('/' :: '/' :: [')'] ++ '\n' :: [])) :=
      .blank hspace (.lineComment (by decide) .nil)
    exact .lexemes (.blockComment hopen .nil)
      (.lexeme ⟨.blank hspace (.newline .nil), ' ', rfl, .inl hspace⟩
        (.lexeme ⟨.blank htab .nil, '\t', rfl, .inl htab⟩ (.gap ⟨hcomment, ' ', rfl, .inl hspace⟩)))
  obtain ⟨_, hfaultless, _, hprint, _⟩ := parse_laidOut Parse.defaultLimit source text false hlaid
  exact ⟨hlaid, hfaultless, hprint.trans (by cbv)⟩

end Parser

end LoxSyntax
