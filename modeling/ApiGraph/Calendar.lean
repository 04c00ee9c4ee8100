import ApiGraph.Text.Digit

namespace ApiGraph

structure Date where
  year : Nat
  month : Nat
  day : Nat
deriving DecidableEq, Inhabited

structure DateTime where
  date : Date
  hour : Nat
  minute : Nat
  second : Nat
  microsecond : Nat
  -- Minutes east of universal time.
  offset : Option Int
deriving DecidableEq, Inhabited

namespace Date

def isLeap (year : Nat) : Bool := year % 4 == 0 && (year % 100 != 0 || year % 400 == 0)

def daysIn (year month : Nat) : Nat :=
  match month with
  | 2 => if isLeap year then 29 else 28
  | 4 | 6 | 9 | 11 => 30
  | _ => 31

def isValid (d : Date) : Bool :=
  1 ≤ d.year && d.year ≤ 9999 && 1 ≤ d.month && d.month ≤ 12 && 1 ≤ d.day &&
    d.day ≤ daysIn d.year d.month

-- Days since the first of January of year one, which is day one.
def ordinal (d : Date) : Nat :=
  let y := d.year - 1
  365 * y + y / 4 - y / 100 + y / 400 +
    (List.range (d.month - 1)).foldl (fun n m => n + daysIn d.year (m + 1)) 0 + d.day

def text (d : Date) : String :=
  s!"{Text.padded 4 d.year}-{Text.padded 2 d.month}-{Text.padded 2 d.day}"

end Date

namespace DateTime

-- An offset stays below a whole day in both directions.
def isValid (t : DateTime) : Bool :=
  t.date.isValid && t.hour < 24 && t.minute < 60 && t.second < 60 && t.microsecond < 1000000 &&
    match t.offset with
    | none => true
    | some m => m.natAbs < 24 * 60

-- Microseconds since the start of the calendar, in universal time where the offset is known.
def instant (t : DateTime) : Int :=
  let minutes : Int := (t.date.ordinal * 24 + t.hour) * 60 + t.minute - t.offset.getD 0
  (minutes * 60 + t.second) * 1000000 + t.microsecond

def offsetText : Option Int → String
  | none => ""
  | some m =>
      let sign := if m < 0 then "-" else "+"
      s!"{sign}{Text.padded 2 (m.natAbs / 60)}:{Text.padded 2 (m.natAbs % 60)}"

-- The date and the time with the given separator between them.
def text (separator : String) (t : DateTime) : String :=
  let micros := if t.microsecond = 0 then "" else "." ++ Text.padded 6 t.microsecond
  t.date.text ++ separator ++
    s!"{Text.padded 2 t.hour}:{Text.padded 2 t.minute}:{Text.padded 2 t.second}" ++ micros ++
    offsetText t.offset

end DateTime

end ApiGraph
