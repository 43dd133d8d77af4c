/-! Dates and times of day as documents write them. Each part has a fixed number of digits, so not
every combination of them is a date or a time. -/

namespace GuardedRtl.Toml

structure Date where
  year : Nat
  month : Nat
  day : Nat
  deriving DecidableEq

/-- A time of day; fractions of a second are always right and are left out. -/
structure TimeOfDay where
  hour : Nat
  minute : Nat
  second : Nat
  deriving DecidableEq

/-- How far local time is from universal time. -/
inductive Zone where
  | utc
  | offset (west : Bool) (hours minutes : Nat)
  deriving DecidableEq

inductive Datetime where
  | date (d : Date)
  | time (t : TimeOfDay)
  | moment (d : Date) (t : TimeOfDay) (zone : Option Zone)
  deriving DecidableEq

namespace Datetime

inductive Part where
  | month | day | hour | minute | second
  deriving DecidableEq

def Part.name : Part → String
  | .month => "month"
  | .day => "day"
  | .hour => "hour"
  | .minute => "minute"
  | .second => "second"

/-- Why there is no such date or time: a part is out of range, or the zone has no place behind it. -/
inductive Problem where
  | outOfRange (part : Part)
  | extraZone (zone : Zone)
  deriving DecidableEq

end Datetime

open Datetime (Part)

namespace Date

def isLeapYear (year : Nat) : Bool := year % 4 == 0 && (year % 100 != 0 || year % 400 == 0)

def daysInMonth (year : Nat) : Nat → Nat
  | 2 => if isLeapYear year then 29 else 28
  | 4 => 30
  | 6 => 30
  | 9 => 30
  | 11 => 30
  | _ => 31

def badMonth? (d : Date) : Option Part :=
  if 1 ≤ d.month ∧ d.month ≤ 12 then none else some .month

def badDay? (d : Date) : Option Part :=
  if 1 ≤ d.day ∧ d.day ≤ daysInMonth d.year d.month then none else some .day

end Date

/-- The first part that is out of range. -/
def TimeOfDay.badPart? (t : TimeOfDay) : Option Part :=
  if 24 ≤ t.hour then some .hour
  else if 60 ≤ t.minute then some .minute
  else if 60 ≤ t.second then some .second
  else none

namespace Zone

/-- A zone may be a full day or a full hour away. -/
def isInRange : Zone → Bool
  | .utc => true
  | .offset _ hours minutes => hours ≤ 24 && minutes ≤ 60

def twoDigits (n : Nat) : String := (if n < 10 then "0" else "") ++ toString n

def text : Zone → String
  | .utc => "Z"
  | .offset west hours minutes =>
    (if west then "-" else "+") ++ twoDigits hours ++ ":" ++ twoDigits minutes

end Zone

namespace Datetime

/-- The first thing that is wrong with a date or a time. The day is compared with its month after all
else. A zone belongs only to a moment that is right in every other part; behind any other it is too
much, unless a part before it is out of range. -/
def problem? : Datetime → Option Problem
  | .date d => (d.badMonth? <|> d.badDay?).map .outOfRange
  | .time t => t.badPart?.map .outOfRange
  | .moment d t none => (d.badMonth? <|> t.badPart? <|> d.badDay?).map .outOfRange
  | .moment d t (some zone) =>
    match d.badMonth? <|> t.badPart? with
    | some part => some (.outOfRange part)
    | none => if d.badDay?.isNone && zone.isInRange then none else some (.extraZone zone)

def Problem.message : Problem → String
  | .outOfRange part => part.name ++ " out of range"
  | .extraZone zone => "extra text: \"" ++ zone.text ++ "\""

end Datetime

end GuardedRtl.Toml
