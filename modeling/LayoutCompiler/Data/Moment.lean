import LayoutCompiler.Number.Exact
/-!
# Moments

Dates and times of day as data documents state them, and the one form in which each of them is
written.
-/

namespace LayoutCompiler

/-- A day of the calendar. -/
structure CalendarDay where
  year : Nat
  month : Nat
  day : Nat
deriving Repr, DecidableEq

/-- A time of day. The last minute of a day may have a second more than others. -/
structure TimeOfDay where
  hour : Nat
  minute : Nat
  second : Nat
  nanosecond : Nat
deriving Repr, DecidableEq

/-- How a clock differs from universal time. -/
inductive TimeZone where
  | universal
  | offset (minutes : Int)
deriving Repr, DecidableEq

/-- A day, a time of day, or both. A zone is known only for both. -/
inductive Moment where
  | day (d : CalendarDay)
  | time (t : TimeOfDay)
  | both (d : CalendarDay) (t : TimeOfDay) (zone : Option TimeZone)
deriving Repr, DecidableEq

namespace CalendarDay

/-- How many days a month has. -/
def monthLength (year month : Nat) : Nat :=
  if month = 2 then
    if (year % 4 = 0 ∧ year % 100 ≠ 0) ∨ year % 400 = 0 then 29 else 28
  else if month = 4 ∨ month = 6 ∨ month = 9 ∨ month = 11 then 30
  else 31

/-- Whether there is such a day. -/
def Valid (d : CalendarDay) : Prop :=
  1 ≤ d.month ∧ d.month ≤ 12 ∧ 1 ≤ d.day ∧ d.day ≤ monthLength d.year d.month

instance (d : CalendarDay) : Decidable d.Valid := by unfold Valid; infer_instance

/-- The written form of a day. -/
def text (d : CalendarDay) : String :=
  String.ofList
    (Exact.padded 4 d.year ++ '-' :: Exact.padded 2 d.month ++ '-' :: Exact.padded 2 d.day)

end CalendarDay

namespace TimeOfDay

/-- Whether there is such a time; every minute may have the additional second. -/
def Valid (t : TimeOfDay) : Prop := t.hour ≤ 23 ∧ t.minute ≤ 59 ∧ t.second ≤ 60

instance (t : TimeOfDay) : Decidable t.Valid := by unfold Valid; infer_instance

/-- The written form of a time. Its fraction ends with the last digit that is not zero. -/
def text (t : TimeOfDay) : String :=
  let clock := Exact.padded 2 t.hour ++ ':' :: Exact.padded 2 t.minute ++
    ':' :: Exact.padded 2 t.second
  match Exact.dropZeros (Exact.padded 9 t.nanosecond) with
  | [] => String.ofList clock
  | fraction => String.ofList (clock ++ '.' :: fraction)

end TimeOfDay

/-- The written form of a zone. No difference from universal time is a positive one. -/
def TimeZone.text : TimeZone → String
  | universal => "Z"
  | offset minutes =>
    let size := minutes.natAbs
    String.ofList
      ((if minutes < 0 then '-' else '+') ::
        (Exact.padded 2 (size / 60) ++ ':' :: Exact.padded 2 (size % 60)))

/-- The written form of a moment. -/
def Moment.text : Moment → String
  | day d => d.text
  | time t => t.text
  | both d t zone => d.text ++ "T" ++ t.text ++ ((zone.map TimeZone.text).getD "")

end LayoutCompiler
