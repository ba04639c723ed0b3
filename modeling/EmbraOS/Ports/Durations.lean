import EmbraOS.Verified.Checked
import EmbraOS.Verified.Decimal
import EmbraOS.Verified.Machine

/-!
# Durations and schedules

`parse_duration` of `tools/mod.rs`, `parse_schedule`, `daily_next` and `next_run_from_now` of
`tools/cron.rs`, and the trigger time of `countdown`.  A computation is `none` where a product
passes 64 bits or a cast to `i64` changes the number (a release build goes on with what is left of
it), and where `chrono` panics.  Times are seconds, and in the section on daily
jobs nanoseconds.

`parseDuration_spelled_iff`: which of the spellings are read.  `schedules_in_range_iff`: which
texts and clocks keep every number in its range.  `daily_next_run_iff`: when a daily job stays at
its time.
-/

namespace EmbraOS.Ports.Durations

open Verified Verified.Checked Verified.Decimal Verified.Text

/-- `str::strip_suffix`. -/
def stripSuffix? (s suf : String) : Option String :=
  if endsWith s suf then some (String.ofList (s.toList.take (s.length - suf.length))) else none

/-- `parse::<u64>().unwrap_or(0)`. -/
def number (s : String) : Nat := (parseUsize s).getD 0

/-- The number of a duration and the seconds of its unit. -/
def readDuration (s : String) : Nat × Nat :=
  -- "5m", "30s", "1h"
  if let some num := stripSuffix? s "s" then (number num, 1)
  else if let some num := stripSuffix? s "m" then (number num, 60)
  else if let some num := stripSuffix? s "h" then (number num, 3600)
  -- "5 minutes", "30 seconds", "1 hour"
  else if let some num := (stripSuffix? s "minutes").or (stripSuffix? s "minute") then
    (number (trim num), 60)
  else if let some num := (stripSuffix? s "seconds").or (stripSuffix? s "second") then
    (number (trim num), 1)
  else if let some num := (stripSuffix? s "hours").or (stripSuffix? s "hour") then
    (number (trim num), 3600)
  else (number s, 1)

/-- The seconds a text asks for; `lower` is `str::to_lowercase`. -/
def asked (lower : String → String) (s : String) : Nat :=
  (readDuration (lower (trim s))).1 * (readDuration (lower (trim s))).2

def parseDuration (lower : String → String) (s : String) : Option Nat := fit? 64 (asked lower s)

/-! ## The spellings -/

inductive TimeUnit where
  | second
  | minute
  | hour

def TimeUnit.seconds : TimeUnit → Nat
  | second => 1
  | minute => 60
  | hour => 3600

def TimeUnit.word : TimeUnit → String
  | second => "second"
  | minute => "minute"
  | hour => "hour"

def TimeUnit.letter : TimeUnit → String
  | second => "s"
  | minute => "m"
  | hour => "h"

inductive Spelling where
  | letter
  | singular
  | plural
deriving DecidableEq

def spell (n : Nat) (unit : TimeUnit) : Spelling → String
  | .letter => n.repr ++ unit.letter
  | .singular => n.repr ++ " " ++ unit.word
  | .plural => n.repr ++ " " ++ unit.word ++ "s"

/-- What the lower case of a text is taken to keep: small letters, digits and blanks. -/
def KeepsPlain (lower : String → String) : Prop :=
  ∀ s : String, (∀ c ∈ s.toList, c.isLower ∨ c.isDigit ∨ c = ' ') → lower s = s

theorem stripSuffix?_append (s suf : String) : stripSuffix? (s ++ suf) suf = some s := by
  have hends : endsWith (s ++ suf) suf = true := by
    rw [endsWith, String.toList_append, List.isSuffixOf_iff_suffix]
    exact List.suffix_append _ _
  rw [stripSuffix?, if_pos hends, String.length_append, Nat.add_sub_cancel, String.toList_append,
    ← String.length_toList, List.take_left, String.ofList_toList]

/-- The last characters differ. -/
theorem stripSuffix?_eq_none (s : String) {t suf : String}
    (h : (t.toList.getLast?.any fun c => suf.toList.getLast?.any (· ≠ c)) = true) :
    stripSuffix? (s ++ t) suf = none := by
  obtain ⟨c, hc, h⟩ := (Option.any_eq_true _ _).1 h
  obtain ⟨d, hd, hne⟩ := (Option.any_eq_true _ _).1 h
  rw [stripSuffix?, if_neg]
  intro hends
  obtain ⟨front, hfront⟩ := List.isSuffixOf_iff_suffix.1 hends
  have hlast := congrArg List.getLast? hfront
  rw [String.toList_append, List.getLast?_append, List.getLast?_append, hc, hd] at hlast
  exact of_decide_eq_true hne (Option.some.inj hlast)

theorem readDuration_letter (s : String) (unit : TimeUnit) :
    readDuration (s ++ unit.letter) = (number s, unit.seconds) := by
  cases unit <;>
    simp [readDuration, TimeUnit.letter, TimeUnit.seconds, stripSuffix?_append,
      stripSuffix?_eq_none]

theorem readDuration_word (s : String) (unit : TimeUnit) :
    readDuration (s ++ unit.word) = (number (trim s), unit.seconds) := by
  cases unit <;>
    simp [readDuration, TimeUnit.word, TimeUnit.seconds, stripSuffix?_append, stripSuffix?_eq_none]

theorem number_repr (n : Nat) : number n.repr = if n < 2 ^ 64 then n else 0 := by
  rw [number, parseUsize_repr_eq]
  split <;> rfl

theorem number_blank (s t : String) : number (s ++ " " ++ t) = 0 := by
  have hblank : ' ' ∈ unsignedDigits (s ++ " " ++ t).toList := by
    have hmem : ' ' ∈ (s ++ " " ++ t).toList := by simp
    unfold unsignedDigits
    split
    · rename_i heq
      rw [heq] at hmem
      simpa using hmem
    · exact hmem
  have hall : (unsignedDigits (s ++ " " ++ t).toList).all Char.isDigit = false :=
    List.all_eq_false.2 ⟨' ', hblank, by decide⟩
  rw [number, parseUsize, hall, Bool.not_false, Bool.or_true, if_pos rfl]
  rfl

theorem head_repr (n : Nat) (t : String) : ∀ c ∈ (n.repr ++ t).toList.head?, c.isDigit = true := by
  intro c hc
  rw [String.toList_append, List.head?_append_of_ne_nil _ (by
    rw [toList_repr]
    exact Nat.toDigits_ne_nil)] at hc
  exact isDigit_of_mem_repr (List.mem_of_mem_head? hc)

theorem trim_repr_append (n : Nat) {t : String} {c : Char} (hlast : t.toList.getLast? = some c)
    (hc : isWhitespace c = false) : trim (n.repr ++ t) = n.repr ++ t := by
  refine trim_of_ends (fun d hd => isWhitespace_of_isDigit (head_repr n t d hd)) fun d hd => ?_
  rw [String.toList_append, List.getLast?_append, hlast] at hd
  obtain rfl := Option.some.inj hd
  exact hc

theorem trim_repr_blank (n : Nat) : trim (n.repr ++ " ") = n.repr := by
  have hback : ∀ c ∈ n.repr.toList.reverse.head?, isWhitespace c = false := fun c hc =>
    isWhitespace_of_isDigit (isDigit_of_mem_repr (List.mem_reverse.1 (List.mem_of_mem_head? hc)))
  rw [trim, trimStart, dropWhile_of_head fun c hc => isWhitespace_of_isDigit (head_repr n _ c hc),
    String.ofList_toList, trimEnd, String.toList_append, List.reverse_append]
  show String.ofList (n.repr.toList.reverse.dropWhile isWhitespace).reverse = n.repr
  rw [dropWhile_of_head hback, List.reverse_reverse, String.ofList_toList]

theorem lower_spell {lower : String → String} (h : KeepsPlain lower) (n : Nat) (unit : TimeUnit)
    (form : Spelling) : lower (trim (spell n unit form)) = spell n unit form := by
  have hkeep : ∀ t : String, (∀ c ∈ t.toList, c.isLower ∨ c.isDigit ∨ c = ' ') →
      lower (n.repr ++ t) = n.repr ++ t := by
    intro t ht
    refine h _ fun c hc => ?_
    rcases List.mem_append.1 (String.toList_append ▸ hc) with hc | hc
    · exact Or.inr (Or.inl (isDigit_of_mem_repr hc))
    · exact ht c hc
  cases form <;> cases unit <;>
    simp only [spell, TimeUnit.letter, TimeUnit.word, String.append_assoc] <;>
    rw [trim_repr_append n rfl (by decide), hkeep _ (by simp)]

/-- Which spellings come out as they are meant. -/
theorem parseDuration_spelled_iff {lower : String → String} (hlower : KeepsPlain lower) (n : Nat)
    (unit : TimeUnit) (form : Spelling) :
    parseDuration lower (spell n unit form) = some (n * unit.seconds) ↔
      n = 0 ∨ form ≠ .plural ∧ n * unit.seconds < 2 ^ 64 := by
  have hunit : 0 < unit.seconds := by cases unit <;> decide
  have hread : form ≠ .plural → readDuration (spell n unit form) =
      (if n < 2 ^ 64 then n else 0, unit.seconds) := by
    intro hform
    cases form with
    | letter => rw [spell, readDuration_letter, number_repr]
    | singular => rw [spell, readDuration_word, trim_repr_blank, number_repr]
    | plural => exact absurd rfl hform
  rw [parseDuration, asked, lower_spell hlower]
  by_cases hform : form = .plural
  · subst hform
    rw [spell, show ∀ s : String, readDuration (s ++ "s") = (number s, 1) from
      fun s => readDuration_letter s .second, number_blank]
    simp [fit?, hunit.ne']
  · rw [hread hform]
    by_cases hn : n < 2 ^ 64
    · rw [if_pos hn]
      constructor
      · intro h
        refine Or.inr ⟨hform, ?_⟩
        by_contra hfit
        rw [fit?, if_neg hfit] at h
        cases h
      · rintro (rfl | ⟨-, hfit⟩)
        · rw [Nat.zero_mul]
          rfl
        · exact fit?_eq hfit
    · have hle := Nat.le_mul_of_pos_right n hunit
      rw [if_neg hn, Nat.zero_mul, fit?_eq (by decide), Option.some_inj]
      constructor
      · intro hzero
        omega
      · omega

theorem parseDuration_ninety_minutes : parseDuration id (spell 90 .minute .letter) = some 5400 :=
  (parseDuration_spelled_iff (fun _ _ => rfl) 90 .minute .letter).2
    (Or.inr ⟨by decide, by decide⟩)

/-- "5 minutes" ends in the letter of the seconds. -/
theorem parseDuration_plural_lost : ¬∀ n unit form,
    parseDuration toAsciiLowercase (spell n unit form) = some (n * unit.seconds) := by
  intro h
  have hfive := h 5 .minute .plural
  revert hfive
  decide +kernel

/-! ## Intervals and times -/

section Times

/-- The most seconds of a `chrono::Duration`. -/
def maxSeconds : Nat := (2 ^ 63 - 1) / 1000

/-- The last instant and the last day of `chrono`. -/
structure Dates where
  last : Int
  lastDay : Int

/-- The day of an instant, and the first instant that reads a time on a day. -/
structure Zone where
  localDay : Int → Int
  earliest : Int → Nat → Nat → Option Int

inductive Schedule where
  | hourly
  | daily (hour minute : Nat)
  | every (duration : String)

variable (lower : String → String) (dates : Dates) (zone : Zone) (now : Int)

/-- `now + Duration::seconds(secs as i64)`. -/
def later? (secs : Nat) : Option Int :=
  (fit? 63 secs).bind fun s =>
    if s ≤ maxSeconds ∧ now + s ≤ dates.last then some (now + s) else none

def nextRunFromNow (intervalSecs : Nat) : Option Int := later? dates now intervalSecs

/-- The days that `daily_next` looks at, from one on. -/
def dailyFrom (hour minute : Nat) : Nat → Int → Option (Option Int)
  | 0, _ => some none
  | n + 1, day =>
    match (zone.earliest day hour minute).filter (now < ·) with
    | some t => some (some t)
    | none => if day + 1 ≤ dates.lastDay then dailyFrom hour minute n (day + 1) else none

def dailyNext (hour minute : Nat) : Option (Option Int) :=
  if hour ≥ 24 ∨ minute ≥ 60 then some none
  else dailyFrom dates zone now hour minute 7 (zone.localDay now)

def parseU32 (s : List Char) : Option Nat := (parseUsize (String.ofList s)).filter (· < 2 ^ 32)

def readSchedule (schedule : String) : Option Schedule :=
  let s := lower (trim schedule)
  if s = "hourly" then some .hourly
  else if let some time := stripPrefix? s "daily " then
    match (trim time).toList.splitOn ':' with
    | [hour, minute] =>
      (parseU32 hour).bind fun hour => (parseU32 minute).map fun minute => .daily hour minute
    | _ => none
  else (stripPrefix? s "every ").map fun duration => .every (trim duration)

/-- The interval and the next run; `some none` is a schedule that is refused. -/
def parseSchedule (schedule : String) : Option (Option (Nat × Int)) :=
  match readSchedule lower schedule with
  | none => some none
  | some .hourly => (later? dates now 3600).map fun next => some (3600, next)
  | some (.daily hour minute) =>
    (dailyNext dates zone now hour minute).map fun next => next.map fun t => (86400, t)
  | some (.every duration) =>
    (parseDuration lower duration).bind fun secs =>
      if secs = 0 then some none else (later? dates now secs).map fun next => some (secs, next)

/-- The part in front of the first blank. -/
def durationStr (param : String) : String := String.ofList (param.toList.takeWhile (· ≠ ' '))

/-- The seconds and the trigger time of `countdown`. -/
def countdown (param : String) : Option (Except String (Nat × Int)) :=
  if param = "" then
    some (.error ("Usage: countdown <duration> <message>\n" ++
      "Example: countdown 5m Check the build"))
  else
    (parseDuration lower (durationStr param)).bind fun seconds =>
      if seconds = 0 then
        some (.error ("Could not parse duration '" ++ durationStr param ++
          "'. Use formats like: 5m, 30s, 1h, '20 minutes'"))
      else (later? dates now seconds).map fun triggerAt => .ok (seconds, triggerAt)

/-- A number of seconds that is refused or leads to an instant. -/
def Fits (n : Nat) : Prop := n = 0 ∨ n ≤ maxSeconds ∧ now + n ≤ dates.last

/-- The search for a day ends before the days do. -/
def Found (hour minute : Nat) (n : Nat) (day : Int) : Prop :=
  ∃ i ≤ n, (i = 0 ∨ day + i ≤ dates.lastDay) ∧
    (i = n ∨ ∃ t, zone.earliest (day + i) hour minute = some t ∧ now < t)

def InRange : Option Schedule → Prop
  | none => True
  | some .hourly => now + 3600 ≤ dates.last
  | some (.daily hour minute) =>
    hour ≥ 24 ∨ minute ≥ 60 ∨ Found dates zone now hour minute 7 (zone.localDay now)
  | some (.every duration) => Fits dates now (asked lower duration)

variable {lower dates zone now}

theorem later?_ne_none {n : Nat} :
    later? dates now n ≠ none ↔ n ≤ maxSeconds ∧ now + n ≤ dates.last := by
  have hcast : n ≤ maxSeconds → n < 2 ^ 63 := fun h => h.trans_lt (by decide)
  simpa [later?, fit?] using fun h _ => hcast h

theorem later?_eq_some {n : Nat} {t : Int} (h : later? dates now n = some t) : t = now + n := by
  obtain ⟨s, hs, h⟩ := Option.bind_eq_some_iff.1 h
  obtain rfl := Option.some.inj (Option.ite_none_right_eq_some.1 hs).2
  exact (Option.some.inj (Option.ite_none_right_eq_some.1 h).2).symm

theorem set_ne_none {α : Type} {s : String} {refused : α} {f : Nat → Int → α} :
    ((parseDuration lower s).bind fun secs =>
        if secs = 0 then some refused else (later? dates now secs).map (f secs)) ≠ none ↔
      Fits dates now (asked lower s) := by
  rw [Fits, ← later?_ne_none, parseDuration, fit?]
  by_cases hzero : asked lower s = 0
  · simp [hzero]
  · rw [or_iff_right hzero]
    by_cases hn : asked lower s < 2 ^ 64
    · rw [if_pos hn, Option.bind_some, if_neg hzero, Ne, Option.map_eq_none_iff]
    · have hlong : ¬asked lower s ≤ maxSeconds := fun h => hn (h.trans_lt (by decide))
      rw [if_neg hn, Option.bind_none]
      exact iff_of_false (fun h => h rfl) fun h => hlong (later?_ne_none.1 h).1

theorem dailyFrom_ne_none {hour minute : Nat} (n : Nat) : ∀ day,
    dailyFrom dates zone now hour minute n day ≠ none ↔
      Found dates zone now hour minute n day := by
  induction n with
  | zero => exact fun day => ⟨fun _ => ⟨0, le_refl _, Or.inl rfl, Or.inl rfl⟩, fun _ => nofun⟩
  | succ n ih =>
    intro day
    rw [dailyFrom]
    split
    · rename_i t ht
      obtain ⟨ht, hnow⟩ := Option.filter_eq_some_iff.1 ht
      refine iff_of_true nofun ⟨0, Nat.zero_le _, Or.inl rfl, Or.inr ⟨t, ?_, by simpa using hnow⟩⟩
      rw [← ht, Nat.cast_zero, Int.add_zero]
    · rename_i hnone
      have hday : ∀ i : Nat, day + 1 + i = day + (i + 1 : Nat) := fun i => by omega
      rw [Option.filter_eq_none_iff] at hnone
      constructor
      · intro h
        split at h
        · rename_i hnext
          obtain ⟨i, hi, hdays, hend⟩ := (ih _).1 h
          rw [hday] at hdays hend
          exact ⟨i + 1, by omega, Or.inr (by omega), hend.imp_left (congrArg _)⟩
        · exact absurd rfl h
      · rintro ⟨_ | i, hi, hdays, hend⟩
        · obtain ⟨t, ht, hnow⟩ := hend.resolve_left (by omega)
          rw [Nat.cast_zero, Int.add_zero] at ht
          exact absurd (decide_eq_true hnow) (hnone t ht)
        · rw [if_pos (by omega), ih]
          rw [← hday] at hdays hend
          exact ⟨i, by omega, Or.inr (by omega), hend.imp_left Nat.succ.inj⟩

/-- **Times in range.**  Whatever the text and the clock, a time comes out (or the text is refused)
exactly when the seconds asked for, in exact arithmetic, fit a duration and the dates. -/
theorem schedules_in_range_iff (text : String) (interval : Nat) :
    (countdown lower dates now text ≠ none ↔
      text = "" ∨ Fits dates now (asked lower (durationStr text))) ∧
    (parseSchedule lower dates zone now text ≠ none ↔
      InRange lower dates zone now (readSchedule lower text)) ∧
    (nextRunFromNow dates now interval ≠ none ↔
      interval ≤ maxSeconds ∧ now + interval ≤ dates.last) := by
  refine ⟨?_, ?_, later?_ne_none⟩
  · unfold countdown
    split
    · rename_i hempty
      simp [hempty]
    · rename_i hne
      rw [set_ne_none, or_iff_right hne]
  · unfold parseSchedule
    cases readSchedule lower text with
    | none => simp [InRange]
    | some schedule =>
      cases schedule with
      | hourly =>
        have hshort : 3600 ≤ maxSeconds := by decide
        rw [Ne, Option.map_eq_none_iff, ← Ne, later?_ne_none, InRange]
        simp [hshort]
      | every duration => exact set_ne_none
      | daily hour minute =>
        rw [Ne, Option.map_eq_none_iff, ← Ne, dailyNext, InRange, ← or_assoc]
        split
        · rename_i hbad
          simp [hbad]
        · rename_i hgood
          rw [dailyFrom_ne_none, or_iff_right hgood]

end Times

/-- `Duration::seconds` panics on a number that `u64` and `i64` hold. -/
theorem countdown_leaves_range : ∃ text,
    countdown toAsciiLowercase ⟨8210266876799, 95026236⟩ 1700000000 text = none := by
  refine ⟨"9999999999999999s stretch", ?_⟩
  decide +kernel

/-! ## Daily jobs -/

/-- The nanoseconds of a day; the instants of this section are counted in them. -/
def day : Int := 86400 * 10 ^ 9

/-- The next run of a job, and the instant it last fired at. -/
structure Job where
  nextRun : Int
  fired : Option Int

/-- One pass of `check_crons`: its clock, the clock when the job has run, and whether the job is
then stored. -/
structure Tick where
  now : Int
  ran : Int
  stored : Bool

/-- A pass over a job with the interval of `daily HH:MM`.  The texts of the instants are compared,
which go in the order of the instants. -/
def checkCron (dates : Dates) (job : Job) (tick : Tick) : Option Job :=
  if tick.now < job.nextRun then some job
  else (nextRunFromNow dates (tick.ran / 10 ^ 9) 86400).map fun next =>
    ⟨if tick.stored then next * 10 ^ 9 + tick.ran % 10 ^ 9 else job.nextRun, some tick.now⟩

section Daily

-- the offset of the zone at each instant, and the time of the day `HH:MM`
variable (offset : Int → Int) (time : Int)

def Reads (t : Int) : Prop := (t + offset t) % day = time

instance decidableReads (t : Int) : Decidable (Reads offset time t) :=
  inferInstanceAs (Decidable (_ = _))

/-- The first instant after another that reads the time. -/
def IsNext (fire t : Int) : Prop :=
  fire < t ∧ Reads offset time t ∧ ∀ u, fire < u → u < t → ¬Reads offset time u

/-- The next run is the first one after the last fire. -/
def Job.OnTime : Job → Prop
  | ⟨_, none⟩ => True
  | ⟨next, some fire⟩ => IsNext offset time fire next

/-- A job that is due is so at its very time, on a day without a change of the offset, its run takes
no time, and it is stored. -/
def Punctual (job : Job) (tick : Tick) : Prop :=
  job.nextRun ≤ tick.now → tick.stored = true ∧ tick.ran = tick.now ∧ Reads offset time tick.now ∧
    ∀ t, tick.now ≤ t → t ≤ tick.now + day → offset t = offset tick.now

variable {offset time}

variable {dates : Dates} {job job' : Job} {tick : Tick}

theorem checkCron_due (hdue : job.nextRun ≤ tick.now)
    (hstep : checkCron dates job tick = some job') :
    job' = ⟨if tick.stored then tick.ran + day else job.nextRun, some tick.now⟩ := by
  rw [checkCron, if_neg (not_lt.2 hdue)] at hstep
  obtain ⟨next, hnext, rfl⟩ := Option.map_eq_some_iff.1 hstep
  obtain rfl := later?_eq_some hnext
  have hran : (tick.ran / 10 ^ 9 + (86400 : Nat)) * 10 ^ 9 + tick.ran % 10 ^ 9 =
      tick.ran + day := by
    rw [day]
    omega
  rw [hran]

theorem isNext_day_iff {now ran : Int} (hran : now ≤ ran)
    (hsame : ∀ t, now ≤ t → t ≤ ran + day → offset t = offset now) :
    IsNext offset time now (ran + day) ↔ ran = now ∧ Reads offset time now := by
  have hpos : (0 : Int) < day := by decide
  have hday : Reads offset time (ran + day) ↔ Reads offset time ran := by
    rw [Reads, Reads, hsame _ (by omega) (le_refl _), hsame ran hran (by omega),
      show ran + day + offset now = ran + offset now + day by omega, Int.add_emod_right]
  constructor
  · rintro ⟨-, hreads, hnone⟩
    obtain rfl : ran = now := by
      by_contra hne
      exact hnone ran (by omega) (by omega) (hday.1 hreads)
    exact ⟨rfl, hday.1 hreads⟩
  · rintro ⟨rfl, hreads⟩
    refine ⟨by omega, hday.2 hreads, fun u hu hu' hread => ?_⟩
    rw [Reads, hsame u hu.le hu'.le] at hread
    rw [Reads] at hreads
    rw [day] at hread hreads hu'
    omega

/-- Where the zone keeps its offset, a fire leaves the job at its time exactly if it is stored, was
due at its very time and took no time. -/
theorem onTime_due_iff (hdue : job.nextRun ≤ tick.now) (hran : tick.now ≤ tick.ran)
    (hsame : ∀ t, tick.now ≤ t → t ≤ tick.ran + day → offset t = offset tick.now)
    (hstep : checkCron dates job tick = some job') : job'.OnTime offset time ↔
      tick.stored = true ∧ tick.ran = tick.now ∧ Reads offset time tick.now := by
  rw [checkCron_due hdue hstep, Job.OnTime, ← isNext_day_iff hran hsame]
  cases tick.stored with
  | true => simp
  | false => simpa using fun h : IsNext _ _ _ _ => absurd h.1 (not_lt.2 hdue)

theorem Punctual.onTime (h : job.OnTime offset time) (hok : Punctual offset time job tick)
    (hstep : checkCron dates job tick = some job') : job'.OnTime offset time := by
  by_cases hdue : job.nextRun ≤ tick.now
  · obtain ⟨hstored, hran, hreads, hsame⟩ := hok hdue
    refine (onTime_due_iff hdue hran.ge ?_ hstep).2 ⟨hstored, hran, hreads⟩
    rwa [hran]
  · rw [checkCron, if_pos (not_le.1 hdue)] at hstep
    rwa [← Option.some.inj hstep]

/-- **Daily jobs.**  In a run of punctual passes every fire leaves the job at its time; and where
the zone keeps its offset only a punctual one does. -/
theorem daily_next_run_iff (dates : Dates) (offset : Int → Int) (time : Int) :
    (∀ first job, Machine.Reaches (checkCron dates) (Punctual offset time) ⟨first, none⟩ job →
      job.OnTime offset time) ∧
    ∀ job tick job', job.nextRun ≤ tick.now → tick.now ≤ tick.ran →
      (∀ t, tick.now ≤ t → t ≤ tick.ran + day → offset t = offset tick.now) →
      checkCron dates job tick = some job' →
      (job'.OnTime offset time ↔
        tick.stored = true ∧ tick.ran = tick.now ∧ Reads offset time tick.now) := by
  refine ⟨fun first job hrun => ?_, fun _ _ _ => onTime_due_iff⟩
  have hfirst : Job.OnTime offset time ⟨first, none⟩ := trivial
  exact hrun.invariant hfirst fun _ _ _ h hok hstep => hok.onTime h hstep

end Daily

/-- Due at 09:00 UTC on two days and run at once, a job is at 09:00 of the third; twenty seconds
late on the first, it is not at 09:00 of the second. -/
theorem daily_next_run_iff_utc :
    Job.OnTime (fun _ => 0) (32400 * 10 ^ 9) ⟨205200 * 10 ^ 9, some (118800 * 10 ^ 9)⟩ ∧
      ¬Job.OnTime (fun _ => 0) (32400 * 10 ^ 9) ⟨118820 * 10 ^ 9, some (32420 * 10 ^ 9)⟩ := by
  obtain ⟨hruns, hfire⟩ :=
    daily_next_run_iff ⟨8210266876799, 95026236⟩ (fun _ => 0) (32400 * 10 ^ 9)
  constructor
  · have hfirst : Machine.Reaches (checkCron ⟨8210266876799, 95026236⟩)
        (Punctual (fun _ => 0) (32400 * 10 ^ 9)) ⟨32400 * 10 ^ 9, none⟩ _ :=
      .step ⟨32400 * 10 ^ 9, 32400 * 10 ^ 9, true⟩ .start
        (fun _ => ⟨rfl, rfl, by decide, fun _ _ _ => rfl⟩) rfl
    exact hruns _ _ (hfirst.step ⟨118800 * 10 ^ 9, 118800 * 10 ^ 9, true⟩
      (fun _ => ⟨rfl, rfl, by decide, fun _ _ _ => rfl⟩) rfl)
  · have hlate := hfire ⟨32400 * 10 ^ 9, none⟩ ⟨32420 * 10 ^ 9, 32420 * 10 ^ 9, true⟩ _ (by decide)
      (le_refl _) (fun _ _ _ => rfl) rfl
    exact fun h => absurd (hlate.1 h).2.2 (by decide)

/-- Due at 09:00 UTC and run twenty seconds later, a job has moved to 09:00:20. -/
theorem daily_job_drifts : ∃ job, checkCron ⟨8210266876799, 95026236⟩ ⟨32400 * 10 ^ 9, none⟩
    ⟨32420 * 10 ^ 9, 32420 * 10 ^ 9, true⟩ = some job ∧
    ¬job.OnTime (fun _ => 0) (32400 * 10 ^ 9) := by
  refine ⟨⟨118820 * 10 ^ 9, some (32420 * 10 ^ 9)⟩, rfl, fun ⟨_, hreads, _⟩ => ?_⟩
  exact absurd (show (118820 * 10 ^ 9 + 0) % day = 32400 * 10 ^ 9 from hreads) (by decide)

end EmbraOS.Ports.Durations
