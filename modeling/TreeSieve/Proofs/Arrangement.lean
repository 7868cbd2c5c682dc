import TreeSieve.CommandLine
import TreeSieve.Proofs.ByteRoots

/-!
# Roots and options on a command line

A command line is made of roots and of options, where an option is a word together with the next
one if that is its value. The options are read one after the other, wherever the roots stand, and
none of them looks at the roots. The roots are read in one go: an option behind the first of them
ends the list, and roots behind the option are words that belong to nothing.

So what a command line says is put together from what its options say by themselves and from its
first run of roots (`CommandLine.parse_rearranged`). As long as the roots stand together, it does
not matter where.
-/

namespace TreeSieve.CommandLine

/-- A root, or the word of an option with the next word if that is its value. -/
inductive Argument where
  | root (path : Text)
  | option (word : Text) (value : Option Text)
  deriving DecidableEq

namespace Argument

def isOption : Argument → Bool
  | root _ => false
  | option _ _ => true

def root? : Argument → Option Text
  | root path => some path
  | option _ _ => none

def words : Argument → List Text
  | root path => [path]
  | option word value => word :: value.toList

/-- A root does not begin with a hyphen. The word of an option is one by which the program knows its
options, be it used rightly or not, and the option has a word for its value if it takes one. -/
inductive IsComplete : Argument → Prop
  | root {path : Text} (h : path.head? ≠ some Word.hyphen) : IsComplete (.root path)
  | refused {word name : Text} {flag : Flag} {attached : Option Text} {e : UsageError}
      (hword : Word.classify word = .ok (.flagged flag name attached))
      (h : Word.options flag name attached = .error e) : IsComplete (.option word none)
  | single {word name : Text} {flag : Flag} {attached : Option Text}
      {options : List (Flag × Option Text)}
      (hword : Word.classify word = .ok (.flagged flag name attached))
      (h : Word.options flag name attached = .ok options) (hwanting : wanting options = none) :
      IsComplete (.option word none)
  | valued {word name value : Text} {flag last : Flag} {attached : Option Text}
      {options : List (Flag × Option Text)}
      (hword : Word.classify word = .ok (.flagged flag name attached))
      (h : Word.options flag name attached = .ok options) (hwanting : wanting options = some last)
      (hvalue : Word.classify value = .ok (.operand value)) : IsComplete (.option word (some value))

/-- What the words of an option say. A root says nothing. -/
def said : Argument → Except UsageError (List (Flag × Option Text))
  | root _ => .ok []
  | option word value => do
    match ← Word.classify word with
    | .flagged flag name attached =>
      let options ← Word.options flag name attached
      match wanting options, value with
      | some last, some value => return options.dropLast ++ [(last, some value)]
      | _, _ => return options
    | _ => return []

/-! ## The places of roots -/

def roots (args : List Argument) : List Text := args.filterMap root?

theorem roots_append (args more : List Argument) :
    roots (args ++ more) = roots args ++ roots more :=
  List.filterMap_append

/-- The roots up to the first option behind a root. -/
def firstRun (args : List Argument) : List Text :=
  roots ((args.dropWhile isOption).takeWhile (!·.isOption))

/-- The roots from the first option behind a root on. -/
def behind (args : List Argument) : List Text :=
  roots ((args.dropWhile isOption).dropWhile (!·.isOption))

theorem firstRun_append_behind (args : List Argument) :
    firstRun args ++ behind args = roots args := by
  have hfront : roots (args.takeWhile isOption) = [] := by
    refine List.filterMap_eq_nil_iff.2 fun a ha => ?_
    have hoption := List.mem_takeWhile_imp ha
    cases a with
    | root path => cases hoption
    | option word value => rfl
  have hall : roots args = roots (args.dropWhile isOption) := by
    conv_lhs => rw [← List.takeWhile_append_dropWhile (p := isOption) (l := args)]
    rw [roots_append, hfront, List.nil_append]
  rw [firstRun, behind, ← roots_append, List.takeWhile_append_dropWhile, hall]

end Argument

namespace Settings

/-! ## Options and paths -/

/-- The settings with other paths to walk. -/
def withPaths (s : Settings) (paths : List Text) : Settings := { s with paths }

/-- An option does not look at the paths. -/
theorem apply_withPaths (s : Settings) (paths : List Text) (option : Flag × Option Text) :
    (s.withPaths paths).apply option = (s.apply option).map (withPaths · paths) := by
  obtain ⟨flag, value?⟩ := option
  cases value? with
  | none => cases flag <;> rfl
  | some value =>
    cases flag with
    | depth =>
      simp only [apply, assign]
      split <;> rfl
    | errorAction =>
      simp only [apply, assign]
      split
      · rfl
      · split <;> rfl
    | _ => rfl

theorem foldlM_apply_withPaths (s : Settings) (paths : List Text)
    (options : List (Flag × Option Text)) :
    options.foldlM apply (s.withPaths paths) =
      (options.foldlM apply s).map (withPaths · paths) := by
  induction options generalizing s with
  | nil => rfl
  | cons option rest ih =>
    rw [List.foldlM_cons, List.foldlM_cons, apply_withPaths]
    cases s.apply option with
    | error e => rfl
    | ok s' => exact ih s'

/-- The settings after an argument, as far as the options go. -/
def take (s : Settings) (a : Argument) : Except Stop Settings := do
  (← a.said.mapError Stop.usage).foldlM apply s

theorem take_withPaths (s : Settings) (paths : List Text) (a : Argument) :
    (s.withPaths paths).take a = (s.take a).map (withPaths · paths) := by
  rw [take, take]
  cases a.said with
  | error e => rfl
  | ok options => exact foldlM_apply_withPaths s paths options

theorem foldlM_take_withPaths (s : Settings) (paths : List Text) (args : List Argument) :
    args.foldlM take (s.withPaths paths) = (args.foldlM take s).map (withPaths · paths) := by
  induction args generalizing s with
  | nil => rfl
  | cons a rest ih =>
    rw [List.foldlM_cons, List.foldlM_cons, take_withPaths]
    cases s.take a with
    | error e => rfl
    | ok s' => exact ih s'

/-- Roots make no difference to what the options say. -/
theorem foldlM_take_filter (s : Settings) (args : List Argument) :
    (args.filter Argument.isOption).foldlM take s = args.foldlM take s := by
  induction args generalizing s with
  | nil => rfl
  | cons a rest ih =>
    cases a with
    | root path => exact ih s
    | option word value =>
      have hkept : ((Argument.option word value) :: rest).filter Argument.isOption =
          .option word value :: rest.filter Argument.isOption := rfl
      rw [hkept, List.foldlM_cons, List.foldlM_cons]
      cases s.take (.option word value) with
      | error e => rfl
      | ok s' => exact ih s'

end Settings

/-! ## Words -/

namespace Word

/-- The separator itself is no option and no operand. -/
theorem classify_ne_ok_of_eq {t : Text} {word : Word} (h : classify t = .ok word) :
    t ≠ separatorText := by
  rintro rfl
  have herror : (classify separatorText).isOk = false := by decide +kernel
  rw [h] at herror
  cases herror

theorem ofTexts_cons_of_classify {t : Text} {word : Word} (h : classify t = .ok word)
    (rest : List Text) : ofTexts (t :: rest) = (ofTexts rest).map (word :: ·) := by
  rw [ofTexts, if_neg (classify_ne_ok_of_eq h), h]
  cases ofTexts rest <;> rfl

end Word

/-! ## Reading -/

namespace Progress

/-- What has been read of a command line after one more argument. -/
def argument (p : Progress) : Argument → Except Stop Progress
  | .root path => .ok (p.operand path)
  | .option word value => do
    return { p.endOperands with settings := ← p.settings.take (.option word value) }

/-- **One argument.** The words of a root make one operand. Those of an option are read in one go,
and what they say is applied to the settings. -/
theorem exists_readWords_append {a : Argument} (h : a.IsComplete) : ∃ ws,
    (∀ rest, Word.ofTexts (a.words ++ rest) = (Word.ofTexts rest).map (ws ++ ·)) ∧
    ∀ p more, readWords p (ws ++ more) = p.argument a >>= (readWords · more) := by
  cases h with
  | @root path h =>
    have hword : Word.classify path = .ok (.operand path) := if_pos h
    refine ⟨[.operand path], fun rest => ?_, fun p more => ?_⟩
    · exact Word.ofTexts_cons_of_classify hword rest
    · rw [List.singleton_append, readWords]
      rfl
  | @refused word name flag attached e hword h =>
    refine ⟨[.flagged flag name attached], fun rest => ?_, fun p more => ?_⟩
    · exact Word.ofTexts_cons_of_classify hword rest
    · have hsaid : (Argument.option word none).said = .error e := by
        simp only [Argument.said, hword, h, bind, Except.bind]
      rw [List.singleton_append, readWords, h, argument, Settings.take, hsaid]
      rfl
  | @single word name flag attached options hword h hwanting =>
    refine ⟨[.flagged flag name attached], fun rest => ?_, fun p more => ?_⟩
    · exact Word.ofTexts_cons_of_classify hword rest
    · have hsaid : (Argument.option word none).said = .ok options := by
        simp only [Argument.said, hword, h, hwanting, bind, Except.bind]
        rfl
      rw [List.singleton_append, readWords, h]
      simp only [hwanting, argument, Settings.take, hsaid]
      rfl
  | @valued word name value flag last attached options hword h hwanting hvalue =>
    refine ⟨[.flagged flag name attached, .operand value], fun rest => ?_, fun p more => ?_⟩
    · have hrest := Word.ofTexts_cons_of_classify hvalue rest
      have hall := Word.ofTexts_cons_of_classify hword (value :: rest)
      rw [hrest] at hall
      refine hall.trans ?_
      cases Word.ofTexts rest <;> rfl
    · have hsaid : (Argument.option word (some value)).said =
          .ok (options.dropLast ++ [(last, some value)]) := by
        simp only [Argument.said, hword, h, hwanting, bind, Except.bind]
        rfl
      rw [List.cons_append, List.singleton_append, readWords, h]
      simp only [hwanting, argument, Settings.take, hsaid]
      rfl

/-- The words of all arguments are read argument by argument. -/
theorem exists_readWords {args : List Argument} (h : ∀ a ∈ args, a.IsComplete) : ∃ ws,
    Word.ofTexts (args.flatMap Argument.words) = .ok ws ∧
    ∀ p, readWords p ws = args.foldlM argument p := by
  induction args with
  | nil => exact ⟨[], rfl, fun p => by rw [readWords]; rfl⟩
  | cons a rest ih =>
    obtain ⟨ha, hrest⟩ := List.forall_mem_cons.1 h
    obtain ⟨more, htexts, hread⟩ := ih hrest
    obtain ⟨ws, hwords, hfirst⟩ := exists_readWords_append ha
    refine ⟨ws ++ more, ?_, fun p => ?_⟩
    · rw [List.flatMap_cons, hwords, htexts]
      rfl
    · rw [hfirst, List.foldlM_cons, funext hread]

/-! ## Settings and what is left over -/

/-- What the reading of a command line comes to. The stage of the reader does not matter at the
end. -/
def outcome (p : Progress) : Settings × List Text := (p.settings, p.leftOver)

variable (s : Settings) (leftOver : List Text) (args : List Argument)

/-- The outcome from a stage on, where the options say what they say to other settings, and the
roots are put to the paths or left over. -/
theorem foldlM_option {stage : Stage} {word : Text} {value : Option Text} {rest : List Argument}
    {paths ps ls : List Text}
    (h : ∀ s,
      (rest.foldlM argument (endOperands ⟨s.withPaths paths, stage, leftOver⟩)).map outcome =
        (rest.foldlM Settings.take s).map fun s => (s.withPaths ps, ls)) :
    ((.option word value :: rest).foldlM argument
        ⟨s.withPaths paths, stage, leftOver⟩).map outcome =
      ((Argument.option word value :: rest).foldlM Settings.take s).map fun s =>
        (s.withPaths ps, ls) := by
  rw [List.foldlM_cons, List.foldlM_cons, argument, Settings.take_withPaths]
  cases hs : s.take (.option word value) with
  | error e => rfl
  | ok s' => exact h s'

/-- Behind an option behind a root, all roots are left over. -/
theorem outcome_after (paths : List Text) :
    (args.foldlM argument ⟨s.withPaths paths, .after, leftOver⟩).map outcome =
      (args.foldlM Settings.take s).map fun s =>
        (s.withPaths paths, leftOver ++ Argument.roots args) := by
  induction args generalizing s leftOver with
  | nil => simp [Argument.roots, pure, Except.pure, Except.map, outcome]
  | cons a rest ih =>
    cases a with
    | root path =>
      have hroots : leftOver ++ Argument.roots (.root path :: rest) =
          (leftOver ++ [path]) ++ Argument.roots rest := by
        rw [List.append_assoc]
        rfl
      rw [hroots]
      exact ih s (leftOver ++ [path])
    | option word value => exact foldlM_option s leftOver fun s => ih s leftOver

/-- Behind a root, more roots are read until an option comes. -/
theorem outcome_within (paths : List Text) :
    (args.foldlM argument ⟨s.withPaths paths, .within, leftOver⟩).map outcome =
      (args.foldlM Settings.take s).map fun s =>
        (s.withPaths (paths ++ Argument.roots (args.takeWhile (!·.isOption))),
          leftOver ++ Argument.roots (args.dropWhile (!·.isOption))) := by
  induction args generalizing paths with
  | nil => simp [Argument.roots, pure, Except.pure, Except.map, outcome]
  | cons a rest ih =>
    cases a with
    | root path =>
      have hroots : paths ++ Argument.roots ((.root path :: rest).takeWhile (!·.isOption)) =
          (paths ++ [path]) ++ Argument.roots (rest.takeWhile (!·.isOption)) := by
        rw [List.append_assoc]
        rfl
      rw [hroots]
      exact ih (paths ++ [path])
    | option word value =>
      have hnone : paths ++ Argument.roots ((.option word value :: rest).takeWhile (!·.isOption)) =
          paths := List.append_nil paths
      rw [hnone]
      exact foldlM_option s leftOver fun s => outcome_after s leftOver rest paths

/-- **The whole command line.** The options say what they say by themselves, the first run of roots
is read, and the roots behind it are left over. -/
theorem outcome_before :
    (args.foldlM argument ⟨s.withPaths [], .before, leftOver⟩).map outcome =
      (args.foldlM Settings.take s).map fun s =>
        (s.withPaths (Argument.firstRun args), leftOver ++ Argument.behind args) := by
  induction args generalizing s with
  | nil => simp [Argument.firstRun, Argument.behind, Argument.roots, pure, Except.pure, Except.map,
      outcome]
  | cons a rest ih =>
    cases a with
    | root path => exact outcome_within s leftOver rest [path]
    | option word value => exact foldlM_option s leftOver ih

end Progress

/-! ## Command lines -/

/-- What a command line of roots and options says. -/
theorem parse_words {args : List Argument} (h : ∀ a ∈ args, a.IsComplete) :
    parse (args.flatMap Argument.words) = args.foldlM Settings.take {} >>= fun s =>
      if Argument.behind args = [] then .ok (s.withPaths (Argument.firstRun args))
      else .error (.usage (.unrecognized (Argument.behind args))) := by
  obtain ⟨ws, htexts, hread⟩ := Progress.exists_readWords h
  have houtcome := Progress.outcome_before {} [] args
  have hparse : parse (args.flatMap Argument.words) =
      (args.foldlM Progress.argument {}).map Progress.outcome >>= fun found =>
        if found.2 = [] then .ok found.1 else .error (.usage (.unrecognized found.2)) := by
    rw [parse, htexts]
    simp only [Except.mapError, bind, Except.bind, hread]
    cases args.foldlM Progress.argument {} <;> rfl
  rw [hparse]
  refine (congrArg (· >>= _) houtcome).trans ?_
  cases args.foldlM Settings.take {} <;> rfl

/-- The options of a command line by themselves. -/
theorem parse_options {args : List Argument} (h : ∀ a ∈ args, a.IsComplete) :
    parse ((args.filter Argument.isOption).flatMap Argument.words) =
      args.foldlM Settings.take {} := by
  have hoptions : ∀ a ∈ args.filter Argument.isOption, a.isOption = true :=
    fun a ha => (List.mem_filter.1 ha).2
  have hdrop : (args.filter Argument.isOption).dropWhile Argument.isOption = [] :=
    List.dropWhile_eq_nil_iff.2 hoptions
  rw [parse_words fun a ha => h a (List.mem_of_mem_filter ha), Settings.foldlM_take_filter,
    Argument.behind, Argument.firstRun, hdrop]
  have hsame := Settings.foldlM_take_withPaths {} [] args
  have hempty : Settings.withPaths {} [] = {} := rfl
  rw [hempty] at hsame
  conv_rhs => rw [hsame]
  cases args.foldlM Settings.take {} <;> rfl

/-- **Roots in one place.** Where the roots of a command line stand among its options makes no
difference as long as no option stands between two of them: the settings are those of the options by
themselves, with all roots as their paths. If an option stands between two roots, the roots from the
first such option on belong to nothing. If the options by themselves stop the program, they do so
wherever the roots stand. -/
theorem parse_rearranged {args args' : List Argument} (h : ∀ a ∈ args, a.IsComplete)
    (h' : ∀ a ∈ args', a.IsComplete)
    (hoptions : args'.filter Argument.isOption = args.filter Argument.isOption)
    (hroots : Argument.roots args' = Argument.roots args) :
    let alone := parse ((args.filter Argument.isOption).flatMap Argument.words)
    (Argument.behind args = [] → Argument.behind args' = [] →
      parse (args'.flatMap Argument.words) = parse (args.flatMap Argument.words)) ∧
    (∀ s, alone = .ok s → Argument.behind args = [] →
      parse (args.flatMap Argument.words) = .ok (s.withPaths (Argument.roots args))) ∧
    (∀ s, alone = .ok s → Argument.behind args ≠ [] →
      parse (args.flatMap Argument.words) =
        .error (.usage (.unrecognized (Argument.behind args)))) ∧
    ∀ stop, alone = .error stop → parse (args.flatMap Argument.words) = .error stop ∧
      parse (args'.flatMap Argument.words) = .error stop := by
  intro alone
  have halone : alone = args.foldlM Settings.take {} := parse_options h
  have hsame : args'.foldlM Settings.take {} = args.foldlM Settings.take {} := by
    rw [← Settings.foldlM_take_filter, hoptions, Settings.foldlM_take_filter]
  have hfirst : ∀ args, Argument.behind args = [] →
      Argument.firstRun args = Argument.roots args := by
    intro args hbehind
    rw [← Argument.firstRun_append_behind, hbehind, List.append_nil]
  rw [parse_words h, parse_words h', hsame, halone]
  refine ⟨fun hbehind hbehind' => ?_, fun s hs hbehind => ?_, fun s hs hbehind => ?_,
    fun stop hstop => ?_⟩
  · rw [hbehind, hbehind', hfirst args hbehind, hfirst args' hbehind', hroots]
  · rw [hs, hbehind, hfirst args hbehind]
    rfl
  · rw [hs]
    exact if_neg hbehind
  · rw [hstop]
    exact ⟨rfl, rfl⟩

/-- Two roots are moved from the front of the command line to a place between options. -/
theorem parse_rearranged_two_roots :
    parse ["--dep", "3", "a", "b", "-vd"] = parse ["a", "b", "--dep", "3", "-vd"] ∧
      parse ["a", "b", "--dep", "3", "-vd"] =
        .ok { paths := ["a", "b"], directory := true, depth := some (some 3), verbose := 1 } := by
  have ha : (Argument.root "a").IsComplete := .root (by decide)
  have hb : (Argument.root "b").IsComplete := .root (by decide)
  have hdepth : (Argument.option "--dep" (some "3")).IsComplete := by
    have hword : Word.classify "--dep" = .ok (.flagged .depth "--depth" none) := by cbv
    exact .valued hword rfl rfl (by cbv)
  have hflags : (Argument.option "-vd" none).IsComplete := by
    have hword : Word.classify "-vd" = .ok (.flagged .verbose "-v" (some "d")) := by cbv
    have hoptions : Word.options .verbose "-v" (some "d") =
        .ok [(.verbose, none), (.directory, none)] := by cbv
    exact .single hword hoptions rfl
  have hargs : ∀ a ∈ [.root "a", .root "b", .option "--dep" (some "3"), .option "-vd" none],
      Argument.IsComplete a := by
    simpa using ⟨ha, hb, hdepth, hflags⟩
  have hargs' : ∀ a ∈ [.option "--dep" (some "3"), .root "a", .root "b", .option "-vd" none],
      Argument.IsComplete a := by
    simpa using ⟨hdepth, ha, hb, hflags⟩
  have halone : parse ["--dep", "3", "-vd"] =
      .ok { directory := true, depth := some (some 3), verbose := 1 } := by cbv
  obtain ⟨hsame, hroots, -, -⟩ := parse_rearranged hargs hargs' rfl rfl
  exact ⟨hsame rfl rfl, hroots _ halone rfl⟩

/-- **An option between two roots**: the flag behind the two roots is read, but where it stands
between them, the second one belongs to nothing. -/
theorem option_between_roots : ∃ args args' : List Argument,
    (∀ a ∈ args, a.IsComplete) ∧ (∀ a ∈ args', a.IsComplete) ∧
      args'.filter Argument.isOption = args.filter Argument.isOption ∧
      Argument.roots args' = Argument.roots args ∧
      parse (args.flatMap Argument.words) = .ok { paths := ["a", "b"], directory := true } ∧
      parse (args'.flatMap Argument.words) = .error (.usage (.unrecognized ["b"])) := by
  have ha : (Argument.root "a").IsComplete := .root (by decide)
  have hb : (Argument.root "b").IsComplete := .root (by decide)
  have hflag : (Argument.option "-d" none).IsComplete := by
    have hword : Word.classify "-d" = .ok (.flagged .directory "-d" none) := by cbv
    exact .single hword rfl rfl
  refine ⟨[.root "a", .root "b", .option "-d" none], [.root "a", .option "-d" none, .root "b"],
    ?_, ?_, rfl, rfl, by cbv, by cbv⟩
  · simpa using ⟨ha, hb, hflag⟩
  · simpa using ⟨ha, hflag, hb⟩

end TreeSieve.CommandLine
