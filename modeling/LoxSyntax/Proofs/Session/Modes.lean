/-
# LoxSyntax.Proofs.Session.Modes -- the mode of a session does not show in what it finds

Three sessions, one in each mode, are told to do the same. The two that print trees go the same way in
everything but the form of the trees: they hold the same, end the same, and give out the same events one by
one, a tree in the one form standing where the other has the tree in the other form. The session that prints
tokens never parses, and holds just the lexical part of what the others do.

`InStep` says this of three steps. A run keeps it because the mode is looked at only after the source has
been read (`run_inStep`), a prompt because each of its lines does and is followed by a reset
(`runLines_inStep`), and so does every command (`perform_inStep`).
-/
import LoxSyntax.Proofs.Session.Account
import Mathlib.Data.List.Forall2

namespace LoxSyntax

/-! ## Events in step -/

namespace Event

variable {xs ys : List Event}

/-- The events are the same, or print the same tree in the two forms. -/
inductive Alike : Event → Event → Prop where
  | same (event : Event) : Alike event event
  | printed (e : Expr) : Alike (.out (Mode.tree.print e ++ "\n")) (.out (Mode.reversePolish.print e ++ "\n"))

theorem alike_refl (events : List Event) : List.Forall₂ Alike events events :=
  List.forall₂_same.2 fun event _ => .same event

theorem Alike.errText_eq {x y : Event} (h : Alike x y) : x.errText = y.errText := by
  cases h with
  | same => rfl
  | printed e => rfl

/-- Events that are alike write the same errors. -/
theorem errOf_eq_of_alike (h : List.Forall₂ Alike xs ys) : errOf xs = errOf ys := by
  have htexts : xs.map errText = ys.map errText := by
    induction h with
    | nil => rfl
    | cons hhead _ ih => rw [List.map_cons, List.map_cons, hhead.errText_eq, ih]
  rw [errOf, errOf, htexts]

end Event

/-! ## Lexical diagnostics -/

/-- The lexical ones among diagnostics. -/
def lexicalOnes (ds : List Diagnostic) : List Diagnostic := ds.filter (·.kind = .lexical)

theorem lexicalOnes_append (ds es : List Diagnostic) :
    lexicalOnes (ds ++ es) = lexicalOnes ds ++ lexicalOnes es := List.filter_append ..

/-- What is found in the characters of a source is lexical. -/
theorem lexicalOnes_diagnostics (source : String) :
    lexicalOnes (Scan.diagnostics source) = Scan.diagnostics source := by
  refine List.filter_eq_self.2 fun d hd => ?_
  obtain ⟨fault, -, rfl⟩ := List.mem_map.1 hd
  rfl

/-- The refusal of a token is not lexical. -/
theorem lexicalOnes_rejection {c after : Cursor} {limit : Option Nat} {rejection : Rejection}
    (h : c.parse limit = (.error rejection, after)) : lexicalOnes [rejection.diagnostic] = [] := by
  unfold Cursor.parse at h
  dsimp only at h
  split at h
  · cases (Prod.mk.inj h).1
  · obtain rfl := Except.error.inj (Prod.mk.inj h).1
    rfl

namespace Session

/-! ## Steps in step -/

/-- A step of each of three sessions, one in each mode, behind which they hold what they should, and in which
those that print trees gave out the same. -/
def InStep (a b c : Step) : Prop :=
  ∃ held, a.session = ⟨.tree, held⟩ ∧ b.session = ⟨.reversePolish, held⟩ ∧
    c.session = ⟨.tokens, lexicalOnes held⟩ ∧ List.Forall₂ Event.Alike a.events b.events

theorem run_inStep (held : List Diagnostic) (source : String) :
    InStep (run ⟨.tree, held⟩ source) (run ⟨.reversePolish, held⟩ source)
      (run ⟨.tokens, lexicalOnes held⟩ source) := by
  have htokens : (run ⟨.tokens, lexicalOnes held⟩ source).session =
      ⟨.tokens, lexicalOnes (held ++ Scan.diagnostics source)⟩ := by
    rw [run_tokens rfl, lexicalOnes_append, lexicalOnes_diagnostics]
    rfl
  have htree : Mode.tree ≠ .tokens := by decide
  have hpolish : Mode.reversePolish ≠ .tokens := by decide
  rcases parsed_cases source with ⟨e, cursor, hparse, -⟩ | ⟨rejection, cursor, hparse, -⟩
  · have ha := run_of_tree (s := ⟨.tree, held⟩) htree hparse
    have hb := run_of_tree (s := ⟨.reversePolish, held⟩) hpolish hparse
    refine ⟨held ++ Scan.diagnostics source, by rw [ha]; rfl, by rw [hb]; rfl, htokens, ?_⟩
    rw [ha, hb]
    refine List.rel_append (Event.alike_refl _) (.cons (.same _) ?_)
    show List.Forall₂ _ (if held ++ Scan.diagnostics source = [] then _ else _) _
    by_cases hheld : held ++ Scan.diagnostics source = []
    · rw [if_pos hheld, if_pos hheld]
      exact .cons (.printed e) .nil
    · rw [if_neg hheld, if_neg hheld]
      exact .nil
  · have ha := run_of_rejection (s := ⟨.tree, held⟩) htree hparse
    have hb := run_of_rejection (s := ⟨.reversePolish, held⟩) hpolish hparse
    refine ⟨held ++ (Scan.diagnostics source ++ [rejection.diagnostic]), by rw [ha]; rfl, by rw [hb]; rfl, ?_, ?_⟩
    · rw [htokens, ← List.append_assoc, lexicalOnes_append _ [rejection.diagnostic], lexicalOnes_rejection hparse,
        List.append_nil]
    · rw [ha, hb]
      exact Event.alike_refl _

theorem runLines_inStep (held : List Diagnostic) (lines : List (List Char)) :
    InStep (runLines ⟨.tree, held⟩ lines) (runLines ⟨.reversePolish, held⟩ lines)
      (runLines ⟨.tokens, lexicalOnes held⟩ lines) := by
  induction lines generalizing held with
  | nil => exact ⟨held, rfl, rfl, rfl, Event.alike_refl _⟩
  | cons line lines ih =>
      obtain ⟨found, ha, hb, hc, hevents⟩ := run_inStep held (String.ofList line)
      -- the reset behind the line leaves three sessions that hold nothing
      obtain ⟨held', ha', hb', hc', hevents'⟩ := ih []
      refine ⟨held', ?_, ?_, ?_, ?_⟩
      · simp only [runLines, ha, reset]
        exact ha'
      · simp only [runLines, hb, reset]
        exact hb'
      · simp only [runLines, hc, reset]
        exact hc'
      · simp only [runLines, ha, hb, reset]
        exact .cons (.same _) (List.rel_append hevents hevents')

/-- Whatever the three sessions are told to do, they stay in step, and those that print trees end the same. -/
theorem perform_inStep (held : List Diagnostic) (command : Command) :
    let a := perform ⟨.tree, held⟩ command
    let b := perform ⟨.reversePolish, held⟩ command
    let c := perform ⟨.tokens, lexicalOnes held⟩ command
    a.exit = b.exit ∧ InStep ⟨a.session, a.events⟩ ⟨b.session, b.events⟩ ⟨c.session, c.events⟩ := by
  cases command with
  | run source => exact ⟨rfl, run_inStep held source⟩
  | prompt input => exact ⟨rfl, runLines_inStep held _⟩
  | reset => exact ⟨rfl, [], rfl, rfl, rfl, .nil⟩
  | file path contents =>
      cases hsource : (Command.file path contents).source? with
      | some source =>
          obtain ⟨bytes, rfl, hbytes⟩ := source?_file hsource
          obtain ⟨held', ha, hb, hc, hevents⟩ := run_inStep held source
          simp only [perform, runFile_of_source hbytes, ha, hb, hc]
          exact ⟨trivial, held', rfl, rfl, rfl, List.rel_append hevents (Event.alike_refl _)⟩
      | none =>
          obtain ⟨records, exit, -, hrun⟩ :=
            exists_runFile_eq_of_unread (forall_ne_of_source?_eq_none hsource) path
          simp only [perform, hrun]
          exact ⟨trivial, held, rfl, rfl, rfl, Event.alike_refl _⟩

/-- What is true of three results, one of each session, of the same command. -/
def SameFound (a b c : Result) : Prop :=
  a.session.held = b.session.held ∧ Event.errOf a.events = Event.errOf b.events ∧ a.exit = b.exit ∧
    List.Forall₂ Event.Alike a.events b.events ∧ c.session.held = lexicalOnes a.session.held

/-- Sessions that hold what they should find the same behind each of the commands they are told. -/
theorem sameFound_performAll (held : List Diagnostic) (commands : List Command) (i : Nat)
    (hi : i < commands.length) :
    ∃ a b c, (performAll ⟨.tree, held⟩ commands)[i]? = some a ∧
      (performAll ⟨.reversePolish, held⟩ commands)[i]? = some b ∧
      (performAll ⟨.tokens, lexicalOnes held⟩ commands)[i]? = some c ∧ SameFound a b c := by
  induction commands generalizing held i with
  | nil => exact absurd hi (Nat.not_lt_zero i)
  | cons command commands ih =>
      obtain ⟨hexit, held', ha, hb, hc, hevents⟩ := perform_inStep held command
      dsimp only at ha hb hc hevents
      cases i with
      | zero =>
          refine ⟨_, _, _, rfl, rfl, rfl, ?_, Event.errOf_eq_of_alike hevents, hexit, hevents, ?_⟩
          · rw [ha, hb]
          · rw [ha, hc]
      | succ i =>
          obtain ⟨a, b, c, hafter⟩ := ih held' i (Nat.lt_of_succ_lt_succ hi)
          refine ⟨a, b, c, ?_⟩
          simpa only [performAll, List.getElem?_cons_succ, ha, hb, hc] using hafter

end Session

end LoxSyntax
