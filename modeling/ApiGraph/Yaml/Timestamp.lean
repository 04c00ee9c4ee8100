import ApiGraph.Calendar
import ApiGraph.Text.Digit

namespace ApiGraph.Yaml

-- The parts as written; they need not name a day that exists.
structure Timestamp where
  year : List Char
  month : List Char
  day : List Char
  time : Option DateTime

namespace Timestamp

abbrev Scan := StateT (List Char) Option

def digits (least most : Nat) : Scan (List Char) := do
  let ds := ((← get).takeWhile Char.isDigit).take most
  if ds.length < least then failure
  modify (·.drop ds.length)
  return ds

def char (p : Char → Bool) : Scan Char := do
  match ← get with
  | c :: rest =>
      if p c then
        set rest
        return c
      else failure
  | [] => failure

def isGap (c : Char) : Bool := c == ' ' || c == '\t'

def gaps : Scan Nat := do
  let n := ((← get).takeWhile isGap).length
  modify (·.drop n)
  return n

def number (ds : List Char) : Nat := Text.ofDigits 10 (ds.map fun c => c.toNat - '0'.toNat)

-- Microseconds from the digits after the point; later digits are dropped.
def microseconds (ds : List Char) : Nat := number ((ds ++ List.replicate 6 '0').take 6)

-- The zone at the end of a time, in minutes east.
def zone : Scan (Option Int) := do
  if (← get).isEmpty then return none
  discard gaps
  let c ← char fun c => c == 'Z' || c == '+' || c == '-'
  if c == 'Z' then return some 0
  let hours ← digits 1 2
  let minutes ← match ← get with
    | ':' :: _ => do
        discard (char (· == ':'))
        digits 2 2
    | _ => pure []
  let total : Int := number hours * 60 + number minutes
  return some (if c == '-' then -total else total)

-- A letter or a gap stands between the date and the time.
def separator : Scan Unit := do
  match ← get with
  | 'T' :: rest => set rest
  | 't' :: rest => set rest
  | _ => if (← gaps) = 0 then failure

def timeOfDay (date : Date) : Scan DateTime := do
  separator
  let hour ← digits 1 2
  discard (char (· == ':'))
  let minute ← digits 2 2
  discard (char (· == ':'))
  let second ← digits 2 2
  let fraction ← match ← get with
    | '.' :: rest => do
        set (rest.dropWhile Char.isDigit)
        pure (rest.takeWhile Char.isDigit)
    | _ => pure []
  let offset ← zone
  return ⟨date, number hour, number minute, number second, microseconds fraction, offset⟩

def scan : Scan Timestamp := do
  let year ← digits 4 4
  discard (char (· == '-'))
  let month ← digits 1 2
  discard (char (· == '-'))
  let day ← digits 1 2
  if (← get).isEmpty then return ⟨year, month, day, none⟩
  let t ← timeOfDay ⟨number year, number month, number day⟩
  if (← get).isEmpty then return ⟨year, month, day, some t⟩ else failure

def ofText? (cs : List Char) : Option Timestamp := (scan.run cs).map Prod.fst

def date (t : Timestamp) : Date := ⟨number t.year, number t.month, number t.day⟩

-- Without a time the month and the day need both their digits to be a date on sight.
def isImplicit (t : Timestamp) : Bool :=
  t.time.isSome || (t.month.length == 2 && t.day.length == 2)

end Timestamp

end ApiGraph.Yaml
