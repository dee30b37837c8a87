/-!
# Options of a roller

What was chosen for a roller before it is used: a source of its own, and
someone to hand the tosses to. Both can be described without looking into
them, and the description says only whether they were chosen.

Choosing does not depend on the order, and choosing twice is the same as
choosing once: a later source takes the place of an earlier one, and so does a
later receiver. A roller without a source of its own uses the generator of the
thread it runs on.

The roller itself is described without its parts. Neither the state of a
source nor the tosses that a receiver holds belong into a description.
-/

namespace Dice

/-- What was chosen for a roller. Only whether something was chosen is kept, as
nothing else shows in a description. -/
structure RollerOptions where
  /-- Whether a source was chosen. -/
  seeded : Bool
  /-- Whether someone receives the tosses. -/
  traced : Bool
deriving DecidableEq

namespace RollerOptions

/-- Nothing chosen yet. -/
def initial : RollerOptions := ⟨false, false⟩

/-- With a source that starts from a seed, or with a source as it is. -/
def withSource (options : RollerOptions) : RollerOptions := { options with seeded := true }

/-- With a receiver of the tosses. -/
def withTracer (options : RollerOptions) : RollerOptions := { options with traced := true }

/-- The description of the options. -/
def describe (options : RollerOptions) : String :=
  "RollerBuilder \x7b seeded: " ++ (if options.seeded then "true" else "false") ++
    ", traced: " ++ (if options.traced then "true" else "false") ++ " \x7d"

/-- The description of a roller, whatever its options were. -/
def rollerDescription : String := "Roller \x7b .. \x7d"

end RollerOptions

end Dice
