namespace HtnPlanner

structure Duration where
  seconds : Nat
  nanoseconds : Nat
  deriving DecidableEq, Repr, Inhabited

namespace Duration

def total (d : Duration) : Nat := d.seconds * 1000000000 + d.nanoseconds

def fits (n : Nat) : Bool := n < UInt64.size

def ofUnit? (n : Nat) : String → Option Duration
  | "nanos" | "nsec" | "ns" => some ⟨0, n⟩
  | "usec" | "us" => some ⟨0, n * 1000⟩
  | "millis" | "msec" | "ms" => some ⟨0, n * 1000000⟩
  | "seconds" | "second" | "secs" | "sec" | "s" => some ⟨n, 0⟩
  | "minutes" | "minute" | "mins" | "min" | "m" => some ⟨n * 60, 0⟩
  | "hours" | "hour" | "hrs" | "hr" | "h" => some ⟨n * 3600, 0⟩
  | "days" | "day" | "d" => some ⟨n * 86400, 0⟩
  | "weeks" | "week" | "w" => some ⟨n * 604800, 0⟩
  | "months" | "month" | "M" => some ⟨n * 2630016, 0⟩
  | "years" | "year" | "y" => some ⟨n * 31557600, 0⟩
  | _ => none

/-- Moves full seconds out of the nanoseconds once there is more than one. -/
def carry (d : Duration) : Duration :=
  if d.nanoseconds ≤ 1000000000 then d
  else ⟨d.seconds + d.nanoseconds / 1000000000, d.nanoseconds % 1000000000⟩

/-- The sum, if no number on the way to it needs more than 64 bits. -/
def add? (d e : Duration) : Option Duration :=
  let sum := d.nanoseconds + e.nanoseconds
  let more := carry ⟨e.seconds, sum⟩
  if [e.seconds, e.nanoseconds, sum, more.seconds, d.seconds + more.seconds].all fits then
    some ⟨d.seconds + more.seconds, more.nanoseconds⟩
  else
    none

def isBlank (c : Char) : Bool :=
  c.isWhitespace || [0x0B, 0x0C, 0x85, 0xA0, 0x1680, 0x2028, 0x2029, 0x202F, 0x205F, 0x3000].contains c.toNat
    || (0x2000 ≤ c.toNat && c.toNat ≤ 0x200A)

/-- A number, in which blanks do not count, up to the first letter. -/
def number? (n : Nat) : List Char → Option (Nat × List Char)
  | [] => some (n, [])
  | c :: cs =>
    if c.isDigit then
      let next := n * 10 + (c.toNat - '0'.toNat)
      if fits next then number? next cs else none
    else if isBlank c then number? n cs
    else if c.isAlpha then some (n, c :: cs)
    else none

/-- Numbers with their units. Every one of them takes up a character or more of the fuel. -/
def terms? : Nat → List Char → Option (List (Nat × String))
  | 0, _ => none
  | fuel + 1, cs =>
    match cs.dropWhile isBlank with
    | [] => some []
    | c :: cs =>
      if c.isDigit then do
        let (n, rest) ← number? 0 (c :: cs)
        let terms ← terms? fuel (rest.dropWhile Char.isAlpha)
        some ((n, String.ofList (rest.takeWhile Char.isAlpha)) :: terms)
      else none

/-- Reads one number or more, each followed by its unit, such as `1h 30min`. -/
def parse? (text : String) : Option Duration := do
  match ← terms? (text.length + 1) text.toList with
  | [] => none
  | terms => terms.foldlM (fun d t => (ofUnit? t.1 t.2).bind d.add?) ⟨0, 0⟩

end Duration

end HtnPlanner
