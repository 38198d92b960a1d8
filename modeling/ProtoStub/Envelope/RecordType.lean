/-
  The records of which requests consist: for each type of record the numbers that are
  known and what stands under them.
-/

namespace ProtoStub.Envelope

/-- The types of records. -/
inductive RecordType where
  | request
  | version
  | file
  | message
  | field
  | oneof
  | enumeration
  | enumValue
  | service
  | method
  | extensionRange
  | reservedRange
  | sourceInfo
  | location
  | fileOptions
  | messageOptions
  | fieldOptions
  | enumOptions
  | enumValueOptions
  | serviceOptions
  | methodOptions
  /-- Options of which none is built in. -/
  | otherOptions
  | freeOption
  | namePart
  deriving DecidableEq, Repr

/-- What stands under a number. -/
inductive Slot where
  | text
  | bytes
  | integer
  /-- Any number of integers, each in a record of its own or several in one. -/
  | integers
  | word64
  | record (type : RecordType)
  deriving DecidableEq, Repr

/-- The number under which all options keep those that are not built in. -/
def freeOptions : Nat × Slot := (999, .record .freeOption)

/-- The known numbers of a type of record. -/
def RecordType.slots : RecordType → List (Nat × Slot)
  | request => [(1, .text), (2, .text), (3, .record version), (15, .record file)]
  | version => [(1, .integer), (2, .integer), (3, .integer), (4, .text)]
  | file =>
    [(1, .text), (2, .text), (3, .text), (4, .record message), (5, .record enumeration),
      (6, .record service), (7, .record field), (8, .record fileOptions),
      (9, .record sourceInfo), (10, .integers), (11, .integers), (12, .text)]
  | message =>
    [(1, .text), (2, .record field), (3, .record message), (4, .record enumeration),
      (5, .record extensionRange), (6, .record field), (7, .record messageOptions),
      (8, .record oneof), (9, .record reservedRange), (10, .text)]
  | field =>
    [(1, .text), (2, .text), (3, .integer), (4, .integer), (5, .integer), (6, .text),
      (7, .text), (8, .record fieldOptions), (9, .integer), (10, .text), (17, .integer)]
  | oneof => [(1, .text), (2, .record otherOptions)]
  | enumeration =>
    [(1, .text), (2, .record enumValue), (3, .record enumOptions), (4, .record reservedRange),
      (5, .text)]
  | enumValue => [(1, .text), (2, .integer), (3, .record enumValueOptions)]
  | service => [(1, .text), (2, .record method), (3, .record serviceOptions)]
  | method =>
    [(1, .text), (2, .text), (3, .text), (4, .record methodOptions), (5, .integer),
      (6, .integer)]
  | extensionRange => [(1, .integer), (2, .integer), (3, .record otherOptions)]
  | reservedRange => [(1, .integer), (2, .integer)]
  | sourceInfo => [(1, .record location)]
  | location => [(1, .integers), (2, .integers), (3, .text), (4, .text), (6, .text)]
  | fileOptions =>
    [(1, .text), (8, .text), (9, .integer), (10, .integer), (11, .text), (16, .integer),
      (17, .integer), (18, .integer), (20, .integer), (23, .integer), (27, .integer),
      (31, .integer), (36, .text), (37, .text), (39, .text), (40, .text), (41, .text),
      (42, .integer), (44, .text), (45, .text), freeOptions]
  | messageOptions => [(1, .integer), (2, .integer), (3, .integer), (7, .integer), freeOptions]
  | fieldOptions =>
    [(1, .integer), (2, .integer), (3, .integer), (5, .integer), (6, .integer), (10, .integer),
      freeOptions]
  | enumOptions => [(2, .integer), (3, .integer), freeOptions]
  | enumValueOptions => [(1, .integer), freeOptions]
  | serviceOptions => [(33, .integer), freeOptions]
  | methodOptions => [(33, .integer), (34, .integer), freeOptions]
  | otherOptions => [freeOptions]
  | freeOption =>
    [(2, .record namePart), (3, .text), (4, .integer), (5, .integer), (6, .word64), (7, .bytes),
      (8, .text)]
  | namePart => [(1, .text), (2, .integer)]

/-- What stands under a number of a type of record. -/
def RecordType.slot? (type : RecordType) (number : Nat) : Option Slot :=
  type.slots.lookup number

end ProtoStub.Envelope
