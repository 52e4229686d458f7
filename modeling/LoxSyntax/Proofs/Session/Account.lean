/-
# LoxSyntax.Proofs.Session.Account -- what a session holds, and when it prints

Whatever a session was told to do before, running a source adds what is wrong with the source to what is
held, writes just that, and prints a tree only if nothing is held behind it (`accounts_perform`). A tree is
there whenever nothing was found (`parsed_cases`), so a session that holds nothing has printed one.

So what is held is known from the commands alone: it is what was found in the sources since the last reset
(`after_eq`). Nothing but a reset takes away from it, and until then no tree is printed and no file ends
well (`withheld_performAll`).
-/
import LoxSyntax.Parse.Parser
import LoxSyntax.Proofs.Session.Prompt
import Mathlib.Data.List.DropRight

namespace LoxSyntax

/-! ## Commands -/

namespace Command

/-- The source that a command runs: one that is given, or one in a file that can be read. -/
def source? : Command → Option String
  | .run source => some source
  | .file _ (.ok bytes) => (sourceOfBytes bytes).toOption
  | .file _ (.error _) | .prompt _ | .reset => none

def isPrompt : Command → Bool
  | .prompt _ => true
  | _ => false

def isReset : Command → Bool
  | .reset => true
  | _ => false

end Command

namespace Session

variable {s : Session} {mode : Mode} {source : String} {command : Command} {commands : List Command}

/-- The session after commands that are done one after the other. -/
def after (s : Session) (commands : List Command) : Session :=
  commands.foldl (fun s command => (s.perform command).session) s

theorem after_concat (s : Session) (commands : List Command) (command : Command) :
    s.after (commands ++ [command]) = ((s.after commands).perform command).session := by
  rw [after, List.foldl_append]
  rfl

/-! ## What is found in a source -/

/-- The parse of the tokens of a source by a parser that has reported nothing. -/
def parsed (source : String) : Option Expr × Parser :=
  (Parser.start (Scan.sequence source) (.empty true)).parse Parse.defaultLimit

/-- What is wrong with a source: its faults and, unless the tokens are to be printed, the refusal of its
tokens. -/
def findings (mode : Mode) (source : String) : List Diagnostic :=
  Scan.diagnostics source ++ if mode = .tokens then [] else (parsed source).2.reporter.held

/-- Either there is a tree and nothing is reported, or there is none and one refusal is. -/
theorem parsed_cases (source : String) :
    (∃ e cursor, Session.parse source = (.ok e, cursor) ∧ (parsed source).1 = some e ∧
      (parsed source).2.reporter.held = []) ∨
    (∃ rejection cursor, Session.parse source = (.error rejection, cursor) ∧ (parsed source).1 = none ∧
      (parsed source).2.reporter.held = [rejection.diagnostic]) := by
  have hcursor : (Parser.start (Scan.sequence source) (.empty true)).cursor.parse Parse.defaultLimit =
      Session.parse source := rfl
  cases h : Session.parse source with
  | mk result cursor =>
      rw [h] at hcursor
      cases result with
      | ok e =>
          have hparsed : parsed source = (some e, ⟨cursor, .empty true⟩) := by
            rw [parsed, Parser.parse, hcursor]
            rfl
          exact .inl ⟨e, cursor, rfl, by rw [hparsed], by rw [hparsed]; rfl⟩
      | error rejection =>
          have hparsed : parsed source = (none, ⟨cursor, (Reporter.empty true).report rejection.diagnostic⟩) := by
            rw [parsed, Parser.parse, hcursor]
            rfl
          exact .inr ⟨rejection, cursor, rfl, by rw [hparsed], by rw [hparsed]; rfl⟩

/-! ## The three ways of a run -/

theorem run_tokens (h : s.mode = .tokens) (source : String) :
    s.run source = ⟨s.hold (Scan.diagnostics source),
      scanEvents source ++ (Scan.tokens source).map fun t => .out (t.display ++ "\n")⟩ := by
  obtain ⟨mode, held⟩ := s
  obtain rfl : mode = .tokens := h
  rfl

theorem run_of_tree {e : Expr} {cursor : Cursor} (h : s.mode ≠ .tokens)
    (hparse : Session.parse source = (.ok e, cursor)) :
    s.run source = ⟨s.hold (Scan.diagnostics source), scanEvents source ++ parsedEvent e cursor ::
      if s.held ++ Scan.diagnostics source = [] then [.out (s.mode.print e ++ "\n")] else []⟩ := by
  obtain ⟨mode, held⟩ := s
  cases mode with
  | tokens => exact absurd rfl h
  | tree | reversePolish =>
      simp only [run, hparse]
      rfl

theorem run_of_rejection {rejection : Rejection} {cursor : Cursor} (h : s.mode ≠ .tokens)
    (hparse : Session.parse source = (.error rejection, cursor)) :
    s.run source = ⟨s.hold (Scan.diagnostics source ++ [rejection.diagnostic]),
      scanEvents source ++ rejectionEvents rejection⟩ := by
  obtain ⟨mode, held⟩ := s
  cases mode with
  | tokens => exact absurd rfl h
  | tree | reversePolish =>
      simp only [run, hparse, hold, List.append_assoc]

/-! ## What a run writes -/

/-- The line that reporting a diagnostic writes. -/
def reportLine (d : Diagnostic) : String := d.text ++ "\n"

theorem join_map_empty {α : Type} (xs : List α) : String.join (xs.map fun _ => "") = "" := by
  induction xs with
  | nil => rfl
  | cons x xs ih => rw [List.map_cons, String.join_cons, ih, String.empty_append]

theorem outOf_map_out (texts : List String) : Event.outOf (texts.map .out) = String.join texts := by
  rw [Event.outOf, List.map_map]
  exact congrArg String.join (List.map_id texts)

theorem errOf_map_out (texts : List String) : Event.errOf (texts.map .out) = "" := by
  rw [Event.errOf, List.map_map]
  exact join_map_empty texts

theorem outOf_map_log (records : List Record) : Event.outOf (records.map .log) = "" := by
  rw [Event.outOf, List.map_map]
  exact join_map_empty records

theorem errOf_map_log (records : List Record) : Event.errOf (records.map .log) = "" := by
  rw [Event.errOf, List.map_map]
  exact join_map_empty records

theorem errOf_reportEvents (d : Diagnostic) : Event.errOf (reportEvents d) = reportLine d := by
  simp [reportEvents, Event.errOf, Event.errText, reportLine]

/-- The events of a fault are records of the log and then the report. -/
theorem exists_faultEvents_eq (fault : Fault) :
    ∃ records : List Record, faultEvents fault = records.map .log ++ reportEvents fault.diagnostic := by
  cases fault with
  | unexpectedCharacter c line => exact ⟨[_], rfl⟩
  | _ => exact ⟨[], rfl⟩

theorem outOf_faultEvents (fault : Fault) : Event.outOf (faultEvents fault) = "" := by
  obtain ⟨records, h⟩ := exists_faultEvents_eq fault
  rw [h, Event.outOf_append, outOf_map_log]
  rfl

theorem errOf_faultEvents (fault : Fault) : Event.errOf (faultEvents fault) = reportLine fault.diagnostic := by
  obtain ⟨records, h⟩ := exists_faultEvents_eq fault
  rw [h, Event.errOf_append, errOf_map_log, errOf_reportEvents, String.empty_append]

theorem outOf_scanEvents (source : String) : Event.outOf (scanEvents source) = "" := by
  rw [scanEvents, Event.outOf_append, Event.outOf_flatMap]
  simp only [outOf_faultEvents, join_map_empty]
  exact String.append_empty

theorem errOf_scanEvents (source : String) :
    Event.errOf (scanEvents source) = String.join ((Scan.diagnostics source).map reportLine) := by
  rw [scanEvents, Event.errOf_append, Event.errOf_flatMap, Scan.diagnostics, List.map_map]
  simp only [errOf_faultEvents]
  exact String.append_empty

theorem errOf_rejectionEvents (rejection : Rejection) :
    Event.errOf (rejectionEvents rejection) = reportLine rejection.diagnostic := by
  rw [rejectionEvents, Event.errOf_append, errOf_reportEvents]
  exact String.append_empty

/-! ## The account of a run -/

/-- What running a source comes to, by the session behind it and the texts that were written: what is wrong
with the source is added to what is held, and written; and the tokens are printed or, if nothing is held
then, the tree. -/
structure Accounts (s : Session) (source : String) (after : Session) (out err : String) : Prop where
  held : after = ⟨s.mode, s.held ++ findings s.mode source⟩
  written : err = String.join ((findings s.mode source).map fun d => d.text ++ "\n")
  tokens : s.mode = .tokens → out = String.join ((Scan.tokens source).map fun t => t.display ++ "\n")
  tree : s.mode ≠ .tokens → after.held = [] → ∃ e, (parsed source).1 = some e ∧ out = s.mode.print e ++ "\n"
  withheld : s.mode ≠ .tokens → after.held ≠ [] → out = ""

/-- The account of what was done on a session. -/
abbrev AccountsFor (s : Session) (source : String) (step : Step) : Prop :=
  Accounts s source step.session (Event.outOf step.events) (Event.errOf step.events)

theorem accounts_of_tokens (h : s.mode = .tokens) (source : String) : AccountsFor s source (s.run source) := by
  have hfindings : findings s.mode source = Scan.diagnostics source := by
    rw [findings, if_pos h, List.append_nil]
  have hprinted : (Scan.tokens source).map (fun t => Event.out (t.display ++ "\n")) =
      ((Scan.tokens source).map fun t => t.display ++ "\n").map .out := by
    rw [List.map_map]
    rfl
  have herr : Event.errOf (s.run source).events = String.join ((Scan.diagnostics source).map reportLine) := by
    rw [run_tokens h, hprinted, Event.errOf_append, errOf_scanEvents, errOf_map_out, String.append_empty]
  have hout : Event.outOf (s.run source).events =
      String.join ((Scan.tokens source).map fun t => t.display ++ "\n") := by
    rw [run_tokens h, hprinted, Event.outOf_append, outOf_scanEvents, outOf_map_out, String.empty_append]
  refine ⟨?_, ?_, fun _ => hout, fun hne => absurd h hne, fun hne => absurd h hne⟩
  · rw [run_tokens h, hfindings]
    rfl
  · rw [herr, hfindings]
    rfl

theorem accounts_of_tree {e : Expr} {cursor : Cursor} (h : s.mode ≠ .tokens)
    (hparse : Session.parse source = (.ok e, cursor)) (htree : (parsed source).1 = some e)
    (hreported : (parsed source).2.reporter.held = []) : AccountsFor s source (s.run source) := by
  have hfindings : findings s.mode source = Scan.diagnostics source := by
    rw [findings, if_neg h, hreported, List.append_nil]
  have hsession : (s.run source).session = s.hold (Scan.diagnostics source) := by rw [run_of_tree h hparse]
  have herr : Event.errOf (s.run source).events = String.join ((Scan.diagnostics source).map reportLine) := by
    rw [run_of_tree h hparse, Event.errOf_append, errOf_scanEvents]
    split
    · exact String.append_empty
    · exact String.append_empty
  have hout : Event.outOf (s.run source).events =
      if s.held ++ Scan.diagnostics source = [] then s.mode.print e ++ "\n" else "" := by
    rw [run_of_tree h hparse, Event.outOf_append, outOf_scanEvents, String.empty_append]
    split
    · simp [Event.outOf, Event.outText, parsedEvent]
    · rfl
  refine ⟨?_, ?_, fun heq => absurd heq h, fun _ hnil => ⟨e, htree, ?_⟩, fun _ hne => ?_⟩
  · rw [hsession, hfindings]
    rfl
  · rw [herr, hfindings]
    rfl
  · rw [hsession] at hnil
    rw [hout]
    exact if_pos hnil
  · rw [hsession] at hne
    rw [hout]
    exact if_neg hne

theorem accounts_of_rejection {rejection : Rejection} {cursor : Cursor} (h : s.mode ≠ .tokens)
    (hparse : Session.parse source = (.error rejection, cursor))
    (hreported : (parsed source).2.reporter.held = [rejection.diagnostic]) :
    AccountsFor s source (s.run source) := by
  have hfindings : findings s.mode source = Scan.diagnostics source ++ [rejection.diagnostic] := by
    rw [findings, if_neg h, hreported]
  have hsession : (s.run source).session = s.hold (Scan.diagnostics source ++ [rejection.diagnostic]) := by
    rw [run_of_rejection h hparse]
  have herr : Event.errOf (s.run source).events =
      String.join ((Scan.diagnostics source ++ [rejection.diagnostic]).map reportLine) := by
    rw [run_of_rejection h hparse, Event.errOf_append, errOf_scanEvents, errOf_rejectionEvents, List.map_append,
      String.join_append]
    simp
  have hout : Event.outOf (s.run source).events = "" := by
    rw [run_of_rejection h hparse, Event.outOf_append, outOf_scanEvents]
    rfl
  refine ⟨?_, ?_, fun heq => absurd heq h, fun _ hnil => ?_, fun _ _ => hout⟩
  · rw [hsession, hfindings]
    rfl
  · rw [herr, hfindings]
    rfl
  · rw [hsession] at hnil
    exact absurd hnil (by simp [hold])

/-- Running a source comes to what its account says, whatever is held. -/
theorem accounts_run (s : Session) (source : String) : AccountsFor s source (s.run source) := by
  by_cases h : s.mode = .tokens
  · exact accounts_of_tokens h source
  · rcases parsed_cases source with
      ⟨e, cursor, hparse, htree, hreported⟩ | ⟨rejection, cursor, hparse, -, hreported⟩
    · exact accounts_of_tree h hparse htree hreported
    · exact accounts_of_rejection h hparse hreported

/-! ## Files -/

/-- How a file ends that was run, by what is held behind it. -/
def exitOf (held : List Diagnostic) : Exit := if held = [] then .ok else .badInput

/-- What the log tells of a file that was run, by what is held behind it. -/
def fileLog (path : String) (held : List Diagnostic) : List Record :=
  if held = [] then [] else [⟨.info, "lox.cli", path ++ ": " ++ toString held.length ++ " error(s)"⟩]

/-- A file that can be read is run like the source in it, and the log may tell of it. -/
theorem runFile_of_source {bytes : List UInt8} (h : sourceOfBytes bytes = .ok source) (s : Session)
    (path : String) :
    s.runFile path (.ok bytes) =
      (⟨(s.run source).session,
        (s.run source).events ++ (fileLog path (s.run source).session.held).map .log⟩,
        exitOf (s.run source).session.held) := by
  by_cases hheld : (s.run source).session.held = []
  · simp only [runFile, h, exitOf, fileLog, if_pos hheld, List.map_nil, List.append_nil]
  · simp only [runFile, h, exitOf, fileLog, if_neg hheld, List.map_cons, List.map_nil]

/-- A file that cannot be read leaves every session as it is, does not end well, and only the log tells of
it. -/
theorem exists_runFile_eq_of_unread {contents : Except ReadFault (List UInt8)}
    (h : ∀ bytes source, contents = .ok bytes → sourceOfBytes bytes ≠ .ok source) (path : String) :
    ∃ (records : List Record) (exit : Exit), exit ≠ .ok ∧
      ∀ s : Session, s.runFile path contents = (⟨s, records.map .log⟩, exit) := by
  cases contents with
  | error fault => exact ⟨[_], .noInput, by decide, fun s => rfl⟩
  | ok bytes =>
      cases hbytes : sourceOfBytes bytes with
      | ok source => exact absurd hbytes (h bytes source rfl)
      | error fault =>
          refine ⟨[⟨.error, "lox.cli", path ++ " is not valid UTF-8: " ++ fault.text⟩], .badInput,
            by decide, ?_⟩
          intro s
          simp only [runFile, hbytes, List.map_cons, List.map_nil]

/-! ## Commands, one after the other -/

theorem source?_file {path : String} {contents : Except ReadFault (List UInt8)}
    (h : (Command.file path contents).source? = some source) :
    ∃ bytes, contents = .ok bytes ∧ sourceOfBytes bytes = .ok source := by
  cases contents with
  | error fault => cases h
  | ok bytes =>
      refine ⟨bytes, rfl, ?_⟩
      have h' : (sourceOfBytes bytes).toOption = some source := h
      cases hbytes : sourceOfBytes bytes with
      | error fault =>
          rw [hbytes] at h'
          cases h'
      | ok text =>
          rw [hbytes] at h'
          exact congrArg Except.ok (Option.some.inj h')

/-- A command that runs a source comes to what the account of the source says. -/
theorem accounts_perform (s : Session) (h : command.source? = some source) :
    Accounts s source (s.perform command).session (Event.outOf (s.perform command).events)
      (Event.errOf (s.perform command).events) := by
  cases command with
  | run given =>
      obtain rfl : given = source := Option.some.inj h
      exact accounts_run s given
  | file path contents =>
      obtain ⟨bytes, rfl, hbytes⟩ := source?_file h
      have haccount := accounts_run s source
      simp only [perform, runFile_of_source hbytes, Event.outOf_append, Event.errOf_append, outOf_map_log,
        errOf_map_log, String.append_empty]
      exact haccount
  | prompt input => cases h
  | reset => cases h

theorem exit_perform_of_source? {path : String} {contents : Except ReadFault (List UInt8)} (s : Session)
    (h : (Command.file path contents).source? = some source) :
    (s.perform (.file path contents)).exit = some (exitOf (s.perform (.file path contents)).session.held) := by
  obtain ⟨bytes, rfl, hbytes⟩ := source?_file h
  simp only [perform, runFile_of_source hbytes]

theorem forall_ne_of_source?_eq_none {path : String} {contents : Except ReadFault (List UInt8)}
    (h : (Command.file path contents).source? = none) :
    ∀ bytes source, contents = .ok bytes → sourceOfBytes bytes ≠ .ok source := by
  rintro bytes source rfl hbytes
  have h' : (sourceOfBytes bytes).toOption = none := h
  rw [hbytes] at h'
  cases h'

/-- A file that is not run does nothing and does not end well. -/
theorem perform_of_unread {path : String} {contents : Except ReadFault (List UInt8)} (s : Session)
    (h : (Command.file path contents).source? = none) :
    let result := s.perform (.file path contents)
    result.session = s ∧ Event.outOf result.events = "" ∧ Event.errOf result.events = "" ∧
      result.exit ≠ some .ok := by
  obtain ⟨records, exit, hexit, hrun⟩ := exists_runFile_eq_of_unread (forall_ne_of_source?_eq_none h) path
  simp only [perform, hrun, outOf_map_log, errOf_map_log]
  exact ⟨trivial, trivial, trivial, fun heq => hexit (Option.some.inj heq)⟩

/-- A command that is neither a prompt nor a reset adds what was found in the source that it runs. -/
theorem session_perform (s : Session) (hprompt : command.isPrompt = false) (hreset : command.isReset = false) :
    (s.perform command).session = ⟨s.mode, s.held ++ command.source?.toList.flatMap (findings s.mode)⟩ := by
  cases hsource : command.source? with
  | some source =>
      rw [(accounts_perform s hsource).held, Option.toList_some, List.flatMap_singleton]
  | none =>
      rw [Option.toList_none, List.flatMap_nil, List.append_nil]
      cases command with
      | run source => cases hsource
      | file path contents => exact (perform_of_unread s hsource).1
      | prompt input => cases hprompt
      | reset => cases hreset

/-- The sources that were run since the last reset. -/
def sourcesSince (commands : List Command) : List String :=
  (commands.rtakeWhile fun command => !command.isReset).filterMap Command.source?

theorem sourcesSince_concat (h : command.isReset = false) (commands : List Command) :
    sourcesSince (commands ++ [command]) = sourcesSince commands ++ command.source?.toList := by
  rw [sourcesSince, List.rtakeWhile_concat_pos _ _ _ (by simp [h]), List.filterMap_append]
  rfl

theorem sourcesSince_reset (commands : List Command) : sourcesSince (commands ++ [.reset]) = [] := by
  rw [sourcesSince, List.rtakeWhile_concat_neg _ _ _ (by simp [Command.isReset])]
  rfl

/-- What is held is what was found in the sources since the last reset. -/
theorem after_eq (mode : Mode) (commands : List Command) (h : ∀ c ∈ commands, c.isPrompt = false) :
    (fresh mode).after commands = ⟨mode, (sourcesSince commands).flatMap (findings mode)⟩ := by
  induction commands using List.reverseRecOn with
  | nil => rfl
  | append_singleton commands command ih =>
      rw [List.forall_mem_append] at h
      rw [after_concat, ih h.1]
      cases hreset : command.isReset with
      | true =>
          cases command with
          | reset =>
              rw [sourcesSince_reset]
              rfl
          | _ => cases hreset
      | false =>
          rw [session_perform _ (h.2 command (List.mem_singleton_self _)) hreset, sourcesSince_concat hreset,
            List.flatMap_append]

/-- While something is held, a command that is neither a prompt nor a reset prints no tree, is no file that
ends well, and leaves something held. -/
theorem withheld_perform (hheld : s.held ≠ []) (hprompt : command.isPrompt = false)
    (hreset : command.isReset = false) :
    (s.perform command).session.held ≠ [] ∧
      (s.mode ≠ .tokens → Event.outOf (s.perform command).events = "") ∧
      (s.perform command).exit ≠ some .ok := by
  have hheld' : (s.perform command).session.held ≠ [] := by
    rw [session_perform s hprompt hreset]
    exact List.append_ne_nil_of_left_ne_nil hheld _
  refine ⟨hheld', ?_⟩
  cases hsource : command.source? with
  | some source =>
      refine ⟨fun hmode => (accounts_perform s hsource).withheld hmode hheld', ?_⟩
      cases command with
      | run given => exact nofun
      | file path contents =>
          rw [exit_perform_of_source? s hsource, exitOf, if_neg hheld']
          decide
      | prompt input => cases hsource
      | reset => cases hsource
  | none =>
      cases command with
      | run given => cases hsource
      | file path contents =>
          obtain ⟨-, hout, -, hexit⟩ := perform_of_unread s hsource
          exact ⟨fun _ => hout, hexit⟩
      | prompt input => cases hprompt
      | reset => cases hreset

/-- While something is held and nothing resets the session, no tree is printed and no file ends well. -/
theorem withheld_performAll (hheld : s.held ≠ [])
    (h : ∀ c ∈ commands, c.isPrompt = false ∧ c.isReset = false) :
    ∀ result ∈ s.performAll commands,
      (s.mode ≠ .tokens → Event.outOf result.events = "") ∧ result.exit ≠ some .ok := by
  induction commands generalizing s with
  | nil => exact fun _ hmem => absurd hmem List.not_mem_nil
  | cons command commands ih =>
      rw [List.forall_mem_cons] at h
      obtain ⟨hheld', hfirst⟩ := withheld_perform hheld h.1.1 h.1.2
      have hmode : (s.perform command).session.mode = s.mode := by rw [session_perform s h.1.1 h.1.2]
      intro result hmem
      rcases List.mem_cons.1 hmem with rfl | hrest
      · exact hfirst
      · rw [← hmode]
        exact ih hheld' h.2 result hrest

/-- A file ends well exactly if its tree was printed. -/
theorem exit_perform_file_eq_ok_iff (hmode : s.mode ≠ .tokens) (path : String)
    (contents : Except ReadFault (List UInt8)) :
    let result := s.perform (.file path contents)
    result.exit = some .ok ↔ ∃ e : Expr, Event.outOf result.events = s.mode.print e ++ "\n" := by
  intro result
  have hline : ∀ text : String, text ++ "\n" ≠ "" := by
    intro text h
    have hlength := congrArg String.length h
    rw [String.length_append] at hlength
    exact absurd hlength (Nat.succ_ne_zero _)
  cases hsource : (Command.file path contents).source? with
  | some source =>
      have haccount : Accounts s source result.session _ _ := accounts_perform s hsource
      have hexit : result.exit = some (exitOf result.session.held) := exit_perform_of_source? s hsource
      by_cases hheld : result.session.held = []
      · obtain ⟨e, -, hout⟩ := haccount.tree hmode hheld
        rw [hexit, exitOf, if_pos hheld]
        exact ⟨fun _ => ⟨e, hout⟩, fun _ => rfl⟩
      · have hout := haccount.withheld hmode hheld
        rw [hexit, exitOf, if_neg hheld, hout]
        exact ⟨nofun, fun ⟨e, heq⟩ => absurd heq.symm (hline _)⟩
  | none =>
      obtain ⟨-, hout, -, hexit⟩ := perform_of_unread s hsource
      exact ⟨fun h => absurd h hexit, fun ⟨e, heq⟩ => absurd (heq.symm.trans hout) (hline _)⟩

end Session

end LoxSyntax
