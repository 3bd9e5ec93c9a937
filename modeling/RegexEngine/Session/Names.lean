/-!
# Named things

A session refers to what it holds by names.  A name stands for one thing at a time.
-/

namespace RegexEngine

/-- Things under names, each name at most once. -/
abbrev Names (α : Type) := List (String × α)

namespace Names

variable {α : Type}

/-- The thing under a name. -/
def find? (names : Names α) (name : String) : Option α := names.lookup name

/-- Whether a name stands for something. -/
def has (names : Names α) (name : String) : Bool := (names.find? name).isSome

/-- Let a name stand for nothing. -/
def remove (names : Names α) (name : String) : Names α := names.filter (·.1 != name)

/-- Let a name stand for something, and no longer for what it stood for before. -/
def put (names : Names α) (name : String) (a : α) : Names α := (name, a) :: names.remove name

/-- The names of the things that satisfy `p`, in alphabetical order. -/
def namesWhere (names : Names α) (p : α → Bool) : List String :=
  ((names.filter (p ·.2)).map (·.1)).mergeSort (· ≤ ·)

@[simp] theorem find?_put_self (names : Names α) (name : String) (a : α) :
    (names.put name a).find? name = some a := by simp [put, find?]

end Names

end RegexEngine
