import ByteMachine.Proofs.LiveLog

/-!
How much is said makes no other difference. Arguments ask to say more by themselves or several at
once, on either side of the program's path; only how often they ask counts. Whatever the two counts
are, a session ends in the same way with the same output, and the one that is asked less shows the
part of the other's record that its own threshold lets through.
-/

namespace ByteMachine

namespace Level

theorem rank_ofVerbosity (verbosity : Nat) : (ofVerbosity verbosity).rank = min verbosity 3 := by
  match verbosity with
  | 0 | 1 | 2 => rfl
  | n + 3 => exact (Nat.min_eq_right (Nat.le_add_left 3 n)).symm

theorem shows_ofVerbosity (verbosity : Nat) (level : Level) :
    (ofVerbosity verbosity).shows level = decide (level.rank ≤ min verbosity 3) := by
  rw [shows, rank_ofVerbosity]

/-- The levels of the events that are shown when it is asked so many times to say more. -/
def selected : Nat → List Level
  | 0 => [.warn]
  | 1 => [.warn, .info]
  | 2 => [.warn, .info, .debug]
  | _ => [.warn, .info, .debug, .trace]

theorem shows_iff_selected (verbosity : Nat) (level : Level) :
    (ofVerbosity verbosity).shows level = true ↔ level ∈ selected verbosity := by
  match verbosity with
  | 0 | 1 | 2 => cases level <;> decide
  | n + 3 => cases level <;> simp [ofVerbosity, selected, shows, rank]

theorem ofVerbosity_min (verbosity : Nat) :
    ofVerbosity (min verbosity 255) = ofVerbosity verbosity := by
  rcases Nat.le_total verbosity 255 with small | large
  · rw [Nat.min_eq_left small]
  · rw [Nat.min_eq_right large]
    obtain ⟨more, rfl⟩ := Nat.exists_eq_add_of_le' (Nat.le_trans (by decide : 3 ≤ 255) large)
    rfl

end Level

/-- Nothing is a mere warning. -/
theorem Event.rank_level (e : Event) : 1 ≤ e.level.rank ∧ e.level.rank ≤ 3 := by
  cases e <;> simp [Event.level, Level.rank]

namespace Cli
section Arguments

inductive Request : Nat → String → Prop where
  | long : Request 1 "--verbose"
  | short (more : Nat) : Request (more + 1) (String.ofList ('-' :: List.replicate (more + 1) 'v'))

/-- Such arguments in a row, and how many times they ask in all. -/
inductive Requests : Nat → List String → Prop where
  | none : Requests 0 []
  | some {times more : Nat} {argument : String} {others : List String}
      (first : Request times argument) (rest : Requests more others) :
      Requests (times + more) (argument :: others)

/-- Arguments that name a program and ask so many times to say more. -/
inductive Asks (path : String) : Nat → List String → Prop where
  | around {before behind : Nat} {front back mark : List String}
      (plain : Word.ofArgument path = .path path) (first : Requests before front)
      (last : Requests behind back) (marked : mark = [] ∨ mark = ["--"]) :
      Asks path (before + behind) (front ++ path :: (back ++ mark))
  | marked {times : Nat} {front : List String} (first : Requests times front) :
      Asks path times (front ++ ["--", path])

namespace Word
variable {argument : String} {times : Nat}

theorem ofLetters_replicate (before more : Nat) :
    ofLetters before (List.replicate more 'v') = .verbose (before + more) := by
  induction more generalizing before with
  | zero => rfl
  | succ more ih =>
    rw [List.replicate_succ, ofLetters, ih, Nat.add_assoc, Nat.add_comm 1]

theorem ofLetters_cases (before : Nat) (letters : List Char) :
    (∃ more, letters = List.replicate more 'v') ∨
      ofLetters before letters = .help ∨ ofLetters before letters = .unknown := by
  fun_induction ofLetters before letters with
  | case1 => exact .inl ⟨0, rfl⟩
  | case2 before letters ih =>
    refine ih.imp_left ?_
    rintro ⟨more, rfl⟩
    exact ⟨more + 1, rfl⟩
  | case3 => exact .inr (.inl rfl)
  | case4 => exact .inr (.inr rfl)

theorem ofArgument_of_request (request : Request times argument) :
    ofArgument argument = .verbose times := by
  cases request with
  | long => rfl
  | short more =>
    -- The words with a meaning of their own begin with two hyphens, a cluster with only one.
    have other (rest : List Char) (text : String) (long : text.toList = '-' :: '-' :: rest) :
        String.ofList ('-' :: List.replicate (more + 1) 'v') ≠ text := by
      rintro rfl
      rw [String.toList_ofList, List.replicate_succ] at long
      simp at long
    rw [ofArgument, if_neg (other [] _ rfl), if_neg (other _ _ rfl), if_neg (other _ _ rfl),
      String.toList_ofList]
    exact (ofLetters_replicate 0 (more + 1)).trans (congrArg _ (Nat.zero_add _))

theorem request_or_other (argument : String) :
    (∃ times, Request times argument) ∨ ofArgument argument = .help ∨
      ofArgument argument = .unknown ∨ ofArgument argument = .path argument ∨
      (argument = "--" ∧ ofArgument argument = .endOfOptions) := by
  fun_cases ofArgument argument with
  | case1 => simp_all
  | case2 => simp
  | case3 _ _ long => exact .inl ⟨1, long ▸ .long⟩
  | case4 => simp
  | case5 _ _ _ letter rest _ letters =>
    obtain ⟨more, made⟩ | help | unknown := ofLetters_cases 0 (letter :: rest)
    · left
      cases more with
      | zero => cases made
      | succ more =>
        refine ⟨more + 1, ?_⟩
        rw [← String.ofList_toList (s := argument), letters, made]
        exact .short more
    · simp [help]
    · simp [unknown]
  | case6 => simp

end Word

theorem requests_append (arguments : List String) :
    ∃ times front rest, Requests times front ∧ arguments = front ++ rest ∧
      ∀ argument ∈ rest.head?, ∀ times, ¬ Request times argument := by
  induction arguments with
  | nil => exact ⟨0, [], [], .none, rfl, by simp⟩
  | cons argument arguments ih =>
    by_cases request : ∃ times, Request times argument
    · obtain ⟨times, first⟩ := request
      obtain ⟨more, front, rest, requests, rfl, other⟩ := ih
      exact ⟨times + more, argument :: front, rest, .some first requests, rfl, other⟩
    · refine ⟨0, [], argument :: arguments, .none, rfl, ?_⟩
      intro other head times first
      cases head
      exact request ⟨times, first⟩

namespace Invocation
variable {program : Option String} {path : String} {times verbosity : Nat} {rest : List String}

theorem interpret_requests {front : List String} (requests : Requests times front)
    (program : Option String) (verbosity : Nat) (rest : List String) :
    interpret program verbosity true (front ++ rest) =
      interpret program (verbosity + times) true rest := by
  induction requests generalizing verbosity with
  | none => rfl
  | some first _ ih =>
    rw [List.cons_append, interpret, if_pos rfl, Word.ofArgument_of_request first, ← Nat.add_assoc]
    exact ih _

theorem interpret_some_eq_run_iff {text : String} :
    interpret (some text) verbosity true rest = .run path times ↔
      text = path ∧ ∃ more back mark, Requests more back ∧ times = verbosity + more ∧
        (mark = [] ∨ mark = ["--"]) ∧ rest = back ++ mark := by
  constructor
  · intro run
    obtain ⟨more, back, tail, requests, rfl, other⟩ := requests_append rest
    rw [interpret_requests requests] at run
    cases tail with
    | nil =>
      cases run
      exact ⟨rfl, more, back, [], requests, rfl, .inl rfl, rfl⟩
    | cons argument tail =>
      rw [interpret, if_pos rfl] at run
      obtain ⟨_, request⟩ | help | unknown | plain | ⟨rfl, mark⟩ := Word.request_or_other argument
      · exact absurd request (other argument rfl _)
      · rw [help] at run
        cases run
      · rw [unknown] at run
        cases run
      · rw [plain] at run
        cases run
      · rw [mark] at run
        cases tail with
        | nil =>
          cases run
          exact ⟨rfl, more, back, ["--"], requests, rfl, .inr rfl, rfl⟩
        | cons => cases run
  · rintro ⟨rfl, more, back, mark, requests, rfl, rfl | rfl, rfl⟩
    · rw [interpret_requests requests, interpret]
    · rw [interpret_requests requests]
      rfl

theorem interpret_path {text : String} {options : Bool}
    (run : (if (none : Option String).isSome ∨ text = "" then refused
      else interpret (some text) verbosity options rest) = .run path times) :
    text ≠ "" ∧ interpret (some text) verbosity options rest = .run path times := by
  by_cases empty : text = ""
  · rw [if_pos (.inr empty)] at run
    cases run
  · rw [if_neg (by simp [empty])] at run
    exact ⟨empty, run⟩

/-- An invocation that runs a program is one that names it and asks to say more. -/
theorem ofArguments_eq_run_iff {arguments : List String} :
    ofArguments arguments = .run path times ↔ path ≠ "" ∧ Asks path times arguments := by
  constructor
  · intro run
    obtain ⟨before, front, rest, requests, rfl, other⟩ := requests_append arguments
    rw [ofArguments, interpret_requests requests, Nat.zero_add] at run
    cases rest with
    | nil => cases run
    | cons argument rest =>
      rw [interpret, if_pos rfl] at run
      obtain ⟨_, request⟩ | help | unknown | plain | ⟨rfl, mark⟩ := Word.request_or_other argument
      · exact absurd request (other argument rfl _)
      · rw [help] at run
        cases run
      · rw [unknown] at run
        cases run
      · rw [plain] at run
        obtain ⟨named, run⟩ := interpret_path run
        obtain ⟨rfl, behind, back, mark, last, rfl, marked, rfl⟩ :=
          interpret_some_eq_run_iff.mp run
        exact ⟨named, .around plain requests last marked⟩
      · rw [mark] at run
        cases rest with
        | nil => cases run
        | cons text rest =>
          obtain ⟨named, run⟩ := interpret_path run
          cases rest with
          | cons => cases run
          | nil =>
            cases run
            exact ⟨named, .marked requests⟩
  · rintro ⟨named, asks⟩
    cases asks with
    | around plain first last marked =>
      rw [ofArguments, interpret_requests first, interpret, if_pos rfl, plain]
      refine (if_neg (by simp [named])).trans ?_
      exact interpret_some_eq_run_iff.mpr
        ⟨rfl, _, _, _, last, by rw [Nat.zero_add], marked, rfl⟩
    | marked first =>
      rw [ofArguments, interpret_requests first, Nat.zero_add]
      exact if_neg (by simp [named])

end Invocation
end Arguments

section Noninterference
variable {read : String → Except ReadFailure (List Byte)} {out : StandardOutput} {path : String}
  {limit verbosity : Nat} {whole : Report}

theorem invoke_of_asks {arguments : List String} (named : path ≠ "")
    (asks : Asks path verbosity arguments) (ended : session? read out limit path = some whole) :
    invoke read out arguments = .report (whole.filter (.ofVerbosity verbosity)) := by
  have enough := session?_stepBound ended
  have run := Invocation.ofArguments_eq_run_iff.mpr ⟨named, asks⟩
  rw [invoke, invokeWithin, run]
  simp only [enough]

theorem live_report (ended : session? read out limit path = some whole) (threshold : Level) :
    InPlace.report? ((InPlace.session threshold read limit path).call .initial out) =
      some (whole.filter threshold) := by
  obtain ⟨result, p, session⟩ := InPlace.exists_session read path out limit
  rw [session.shown, InPlace.report?_shown, session.whole, ended, Option.map_some]

theorem live_alike (read : String → Except ReadFailure (List Byte)) (out : StandardOutput)
    (limit : Nat) (path : String) (s t : Level) :
    ((InPlace.session s read limit path).call .initial out).1 =
        ((InPlace.session t read limit path).call .initial out).1 ∧
      ((InPlace.session s read limit path).call .initial out).2.machine =
        ((InPlace.session t read limit path).call .initial out).2.machine := by
  obtain ⟨result, p, session⟩ := InPlace.exists_session read path out limit
  rw [session.shown, session.shown]
  exact ⟨rfl, rfl⟩

/-- Of two sessions with the same program the one that is asked less often to say more ends in the
same way, with the same output and the same text on standard error. Each shows of the whole record
the levels that belong to its count, so its record is the part of the other's that its own threshold
shows. Both reports are those of the sessions in which every event asks the threshold when it
happens. -/
theorem verbosity_noninterference (read : String → Except ReadFailure (List Byte))
    (out : StandardOutput) {path : String} (named : path ≠ "") {v w : Nat} (fewer : v ≤ w)
    {quiet loud : List String} (asksLess : Asks path v quiet) (asksMore : Asks path w loud)
    {limit : Nat} (ended : session? read out limit path ≠ none) :
    let live (count n : Nat) :=
      (InPlace.session (.ofVerbosity (min count 255)) read n path).call .initial out
    (∀ count level, (Level.ofVerbosity count).shows level = true ↔
      level ∈ Level.selected count) ∧
    ∃ whole r s : Report, session? read out limit path = some whole ∧
      (invoke read out quiet = .report r ∧ InPlace.report? (live v limit) = some r) ∧
      (invoke read out loud = .report s ∧ InPlace.report? (live w limit) = some s) ∧
      (r.status = s.status ∧ r.output = s.output ∧ r.complaint = s.complaint) ∧
      (r.events = whole.events.filter (fun e => e.level ∈ Level.selected v) ∧
        s.events = whole.events.filter (fun e => e.level ∈ Level.selected w)) ∧
      r.events = s.events.filter (fun e => (Level.ofVerbosity v).shows e.level) ∧
      (v = 0 → r.events = []) ∧ (3 ≤ v → r.events = s.events) ∧
      ∀ n, (live v n).1 = (live w n).1 ∧ (live v n).2.machine = (live w n).2.machine := by
  intro live
  obtain ⟨whole, ended⟩ := Option.ne_none_iff_exists'.mp ended
  have reported (count : Nat) :
      InPlace.report? (live count limit) = some (whole.filter (.ofVerbosity count)) := by
    rw [← Level.ofVerbosity_min count]
    exact live_report ended _
  have less : (whole.filter (.ofVerbosity v)).events =
      (whole.filter (.ofVerbosity w)).events.filter
        (fun e => (Level.ofVerbosity v).shows e.level) := by
    rw [Report.filter, Report.filter, List.filter_filter]
    refine List.filter_congr fun e _ => ?_
    rw [Level.shows_ofVerbosity, Level.shows_ofVerbosity, ← Bool.decide_and, decide_eq_decide]
    omega
  have chosen (count : Nat) : (whole.filter (.ofVerbosity count)).events =
      whole.events.filter (fun e => e.level ∈ Level.selected count) := by
    refine List.filter_congr fun e _ => ?_
    rw [Bool.eq_iff_iff, Level.shows_iff_selected, decide_eq_true_eq]
  refine ⟨Level.shows_iff_selected, whole, _, _, ended,
    ⟨invoke_of_asks named asksLess ended, reported v⟩,
    ⟨invoke_of_asks named asksMore ended, reported w⟩, ⟨rfl, rfl, rfl⟩, ⟨chosen v, chosen w⟩, less,
    ?_, ?_, fun n => live_alike read out n path _ _⟩
  · rintro rfl
    refine List.filter_eq_nil_iff.mpr fun e _ => ?_
    have speaks := e.rank_level.1
    rw [Level.shows_ofVerbosity, decide_eq_true_eq]
    omega
  · intro all
    rw [less]
    refine List.filter_eq_self.mpr fun e _ => ?_
    have highest := e.rank_level.2
    rw [Level.shows_ofVerbosity, decide_eq_true_eq]
    omega

-- Asked once before the path, and four times behind it in two ways.
theorem verbosity_noninterference_printsZero :
    ∃ r s : Report,
      invoke printsZero .connected ["-v", "zero.ls8"] = .report r ∧
      invoke printsZero .connected ["zero.ls8", "-vvv", "--verbose"] = .report s ∧
      (r.status = s.status ∧ r.output = s.output ∧ r.complaint = s.complaint) ∧
      r.events = s.events.filter (fun e => Level.info.shows e.level) ∧
      (∀ e ∈ r.events, e.level = .warn ∨ e.level = .info) := by
  have once : Asks "zero.ls8" 1 ["-v", "zero.ls8"] :=
    .around (by decide) (.some (.short 0) .none) .none (.inl rfl)
  have often : Asks "zero.ls8" 4 ["zero.ls8", "-vvv", "--verbose"] :=
    .around (by decide) .none (.some (.short 2) (.some .long .none)) (.inl rfl)
  have ended : session? printsZero .connected 9 "zero.ls8" ≠ none := by decide +kernel
  obtain ⟨-, whole, r, s, -, ⟨less, -⟩, ⟨more, -⟩, same, ⟨chosen, -⟩, part, -⟩ :=
    verbosity_noninterference printsZero .connected (by decide) (by decide : 1 ≤ 4) once often ended
  refine ⟨r, s, less, more, same, part, ?_⟩
  intro e member
  rw [chosen] at member
  simpa [Level.selected] using (List.mem_filter.mp member).2

end Noninterference
end Cli
end ByteMachine
