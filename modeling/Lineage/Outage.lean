/-!
# Failures still to come

What an operation does when it is refused is part of its meaning, but which operations are refused
is not. A plan of failures decides it: it tells, for each operation to come, whether and how that
operation fails.
-/

namespace Lineage

/-- For the operations to come, numbered from the next one on, how each fails if it does. -/
abbrev Outage (Operation Fault : Type) := Nat → Operation → Option Fault

namespace Outage

variable {Operation Fault : Type}

/-- The plan in which nothing fails. -/
def quiet : Outage Operation Fault := fun _ _ => none

/-- The plan once one more operation is over. -/
def later (o : Outage Operation Fault) : Outage Operation Fault := fun n => o (n + 1)

/-- The plan in which operations fail by their kind alone, until further notice. -/
def standing (f : Operation → Option Fault) : Outage Operation Fault := fun _ => f

@[simp] theorem quiet_apply (n : Nat) (op : Operation) :
    (quiet : Outage Operation Fault) n op = none := rfl

@[simp] theorem later_quiet : (quiet : Outage Operation Fault).later = quiet := rfl

@[simp] theorem later_standing (f : Operation → Option Fault) :
    (standing f).later = standing f := rfl

end Outage

end Lineage
