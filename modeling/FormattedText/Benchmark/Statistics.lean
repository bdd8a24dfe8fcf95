import FormattedText.Number.Decimal
import FormattedText.Number.Nearest

/-!
# Statistics of timings

Timings of an operation, summarised in one line: percentiles and mean of the
nanoseconds that one operation took, and the operations in a second. All numbers
are floating-point numbers, rounded after every step, and are shown with three
digits after the point.
-/

namespace FormattedText

namespace Benchmark

/-- One timing. -/
structure Timing where
  /-- The number of operations. -/
  operations : Nat
  /-- The nanoseconds that they took together. -/
  nanoseconds : Nat
  deriving DecidableEq, Repr

/-- The nanoseconds that one operation took; at least one operation is assumed. -/
def Timing.perOperation (t : Timing) : Binary64 :=
  (Binary64.ofNat t.nanoseconds).dividedBy (.ofNat (max t.operations 1))

/-- The greatest number of operations that a total counts. -/
def greatestOperations : Nat := Nat.pow 2 64 - 1

/-- The greatest number of nanoseconds that a total counts. -/
def greatestNanoseconds : Nat := Nat.pow 2 128 - 1

/-- A sum that stops at a bound. -/
def boundedSum (bound : Nat) (ns : List Nat) : Nat := ns.foldl (fun s n => min (s + n) bound) 0

/-- The place of a percentile among `length` sorted values: the nearest one, a half
going up. -/
def percentilePlace (length : Nat) (p : Binary64) : Nat :=
  min ((Binary64.ofNat (length - 1)).times p).roundedHalfUp (length - 1)

/-- The percentile of sorted values; zero where there are none. -/
def percentile (sorted : List Binary64) (p : Binary64) : Binary64 :=
  (sorted[percentilePlace sorted.length p]?).getD .zero

/-- A percentage as a floating-point number. -/
def percent (n : Nat) : Binary64 := .nearest n 100

/-- The mean of values that are not negative. -/
def mean (values : List Binary64) : Binary64 :=
  (values.foldl Binary64.plus .zero).dividedBy (.ofNat values.length)

/-- The operations in a second; zero where no time was taken. -/
def throughput (operations nanoseconds : Nat) : Binary64 :=
  if nanoseconds = 0 then .zero
  else
    (Binary64.ofNat operations).dividedBy
      ((Binary64.ofNat nanoseconds).dividedBy (.ofNat (Nat.pow 10 9)))

/-- A number that is not negative, with three digits after the point. -/
def threePlaces (v : Binary64) : String :=
  String.ofList (Digits.chars (Decimal.fixed v 3 false))

/-- The items of a summary, by their names. -/
def summaryItems (timings : List Timing) : List (String × String) :=
  let values := (timings.map Timing.perOperation).mergeSort fun a b => a.bits ≤ b.bits
  let operations := boundedSum greatestOperations (timings.map (·.operations))
  let nanoseconds := boundedSum greatestNanoseconds (timings.map (·.nanoseconds))
  [("samples", toString timings.length),
   ("p50_ns_op", threePlaces (percentile values (percent 50))),
   ("p95_ns_op", threePlaces (percentile values (percent 95))),
   ("p99_ns_op", threePlaces (percentile values (percent 99))),
   ("mean_ns_op", threePlaces (mean values)),
   ("throughput_ops_s", threePlaces (throughput operations nanoseconds))]

/-- The line that summarises timings, if there are any. -/
def summaryLine? (tag label : String) (timings : List Timing) : Option String :=
  if timings.isEmpty then none
  else
    some (String.intercalate " "
      (tag :: (("bench", label) :: summaryItems timings).map fun (name, value) =>
        name ++ "=" ++ value))

end Benchmark

end FormattedText
