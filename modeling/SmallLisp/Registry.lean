import SmallLisp.Table
import SmallLisp.Failure.Basic

/-!
# Registries

A registry maps the tag in head position of a form to what evaluates the form. It only grows, keeps
the order of registration, and refuses a tag that it has; once sealed it refuses all.
-/

namespace SmallLisp

/-- The handlers of tagged forms. -/
structure Registry (η : Type) where
  handlers : Table η
  isSealed : Bool
  deriving Inhabited

namespace Registry

variable {η : Type}

/-- The open registry without tags. -/
def empty : Registry η := ⟨∅, false⟩

instance : EmptyCollection (Registry η) := ⟨empty⟩

/-- Adds a tag at the end. -/
def register (r : Registry η) (tag : String) (handler : η) : Except UsageFault (Registry η) :=
  if r.isSealed then .error (.registrySealed tag)
  else if r.handlers.contains tag then .error (.duplicateForm tag)
  else .ok { r with handlers := r.handlers.set tag handler }

/-- Adds tags one by one up to the first that is refused; the tags before it stay. -/
def registerAll (r : Registry η) : List (String × η) → Option UsageFault × Registry η
  | [] => (none, r)
  | (tag, handler) :: rest =>
    match r.register tag handler with
    | .ok r => r.registerAll rest
    | .error fault => (some fault, r)

def get? (r : Registry η) (tag : String) : Option η :=
  r.handlers.get? tag

def contains (r : Registry η) (tag : String) : Bool :=
  r.handlers.contains tag

/-- The tags in the order of registration. -/
def tags (r : Registry η) : List String :=
  r.handlers.names

/-- No tag can be added any more. -/
def close (r : Registry η) : Registry η :=
  { r with isSealed := true }

@[simp] theorem tags_empty : (empty : Registry η).tags = [] := rfl

@[simp] theorem handlers_close (r : Registry η) : r.close.handlers = r.handlers := rfl

end Registry

end SmallLisp
