/-!
Uses of a value that its kind does not allow. They are mistakes of the caller, and not judgements
about a query: those are the business of `Error`.
-/
namespace SqlFragment

inductive Fault
  /-- Something other than a mapping where entries are looked up. -/
  | notMapping
  /-- Something other than text where case or dots matter. -/
  | notText
  /-- Bytes where a name is split at its dots. -/
  | bytesAsName
  /-- Something without elements where elements are walked. -/
  | notIterable
  /-- An element that is no pair where entries are made from pairs. -/
  | notPair
  /-- A key that can change. -/
  | unstableKey
  /-- A name that is no text where names are put into words. -/
  | foreignName
  /-- Clauses that are no text where a text goes on with them. -/
  | foreignText
  /-- A number with digits that have no place value, or with more digits than are read or written. -/
  | unreadableNumber
  /-- A cutoff outside zero to one. -/
  | cutoffRange
  /-- A cutoff that is no number. -/
  | cutoffKind
  /-- A place behind the end of a sequence, such as that of a marker in a tuple that is longer than
  the values left for it. -/
  | markerRange
  /-- A name at which nothing is found, such as the spelling of a marker or of a list. -/
  | lostName
  /-- Two names of markers or lists that are spelled alike. -/
  | sharedSpelling
  /-- A quoter that quotes for no known dialect, where a statement is written. -/
  | noDialect
deriving DecidableEq, Repr, Inhabited

end SqlFragment
