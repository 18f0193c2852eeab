import Std.Data.ExtTreeMap

/-!
# Identifiers and values

Blocks refer to each other by number, loops included, so the identifiers are the only link between
the nodes of a flowchart. Two types keep thread numbers and block numbers apart. Both are ordered
by number; the order is the one in which threads are scheduled and blocks are listed.

Shared variables hold 32-bit words. Literals of a program are wider, and so are the numbers of
the input stream; both are cut to a word when they are stored, and only then.
-/

namespace Flowchart

/-- The number of a thread, unique within a program. -/
structure ThreadId where
  /-- The bare number. -/
  val : UInt32
  deriving DecidableEq, Inhabited

/-- The number of a block, unique within one thread. Different threads may use one number for
unrelated blocks. -/
structure BlockId where
  /-- The bare number. -/
  val : UInt32
  deriving DecidableEq, Inhabited

namespace ThreadId

instance : Ord ThreadId :=
  ⟨fun a b => compare a.val b.val⟩

instance : Std.TransOrd ThreadId :=
  inferInstanceAs (Std.TransCmp (compareOn ThreadId.val))

instance : Std.LawfulEqOrd ThreadId where
  eq_of_compare {a b} h := by
    cases a
    cases b
    exact congrArg mk (Std.LawfulEqOrd.eq_of_compare h)

/-- A thread number as text: `T1`. -/
def text (t : ThreadId) : String :=
  "T" ++ t.val.toNat.repr

end ThreadId

namespace BlockId

instance : Ord BlockId :=
  ⟨fun a b => compare a.val b.val⟩

instance : Std.TransOrd BlockId :=
  inferInstanceAs (Std.TransCmp (compareOn BlockId.val))

instance : Std.LawfulEqOrd BlockId where
  eq_of_compare {a b} h := by
    cases a
    cases b
    exact congrArg mk (Std.LawfulEqOrd.eq_of_compare h)

/-- A block number as text: `B1`. -/
def text (b : BlockId) : String :=
  "B" ++ b.val.toNat.repr

end BlockId

/-- The content of a shared variable: a word of 32 bits. -/
abbrev Value := UInt32

/-- The word that an assignment stores for a literal: its low 32 bits. -/
def Value.ofLiteral (n : UInt64) : Value :=
  n.toUInt32

/-- The word that an input number is stored as: the low 32 bits of its two's complement form. -/
def Value.ofInput (i : Int64) : Value :=
  i.toUInt64.toUInt32

/-- A value written in decimal. -/
def Value.text (v : Value) : String :=
  v.toNat.repr

end Flowchart
