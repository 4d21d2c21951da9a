import ArrowCalc.Value

/-!
# Scopes

Names are bound in frames. There is always a global frame; each call in progress adds one frame for
its parameters. A name is looked up from the innermost frame outwards, and declared in the innermost
frame.
-/

namespace ArrowCalc

/-! ### Frames -/

/-- The bindings of one frame. -/
structure Frame where
  bindings : List (String × Value)

namespace Frame

/-- The frame without bindings. -/
def empty : Frame := ⟨[]⟩

/-- Binds a name, in place of an earlier binding of it. -/
def insert (f : Frame) (name : String) (value : Value) : Frame :=
  ⟨(name, value) :: f.bindings.filter (·.1 ≠ name)⟩

/-- The value bound to a name. -/
def find? (f : Frame) (name : String) : Option Value := f.bindings.lookup name

/-- Binds names one after the other, so that the last binding of a name counts. -/
def ofList (bindings : List (String × Value)) : Frame :=
  bindings.foldl (fun f b => f.insert b.1 b.2) empty

@[simp] theorem find?_empty (name : String) : empty.find? name = none := rfl

@[simp] theorem find?_insert_self (f : Frame) (name : String) (value : Value) :
    (f.insert name value).find? name = some value := by
  simp only [find?, insert, List.lookup_cons, BEq.rfl]

/-- Removing the bindings of a name leaves those of the other names. -/
theorem lookup_filter_of_ne {bindings : List (String × Value)} {name other : String}
    (h : other ≠ name) :
    (bindings.filter (·.1 ≠ name)).lookup other = bindings.lookup other := by
  induction bindings with
  | nil => rfl
  | cons b bs ih =>
    obtain ⟨x, v⟩ := b
    by_cases hx : x = name
    · subst hx
      rw [List.filter_cons_of_neg (by simp), ih, List.lookup_cons, beq_false_of_ne h]
    · rw [List.filter_cons_of_pos (by simpa using hx), List.lookup_cons, List.lookup_cons, ih]

theorem find?_insert_of_ne (f : Frame) {name other : String} (value : Value) (h : other ≠ name) :
    (f.insert name value).find? other = f.find? other := by
  rw [find?, insert, List.lookup_cons, beq_false_of_ne h]
  exact lookup_filter_of_ne h

end Frame

/-! ### Scopes -/

/-- The live frames: those of the calls in progress, innermost first, and the global one. -/
structure Scopes where
  locals : List Frame
  globals : Frame

namespace Scopes

/-- The global frame alone, without bindings. -/
def empty : Scopes := ⟨[], .empty⟩

/-- The number of live frames. -/
def depth (s : Scopes) : Nat := s.locals.length + 1

/-- Adds a frame on the inside. -/
def push (s : Scopes) (f : Frame) : Scopes := { s with locals := f :: s.locals }

/-- Removes the innermost frame. The global frame always stays. -/
def pop (s : Scopes) : Scopes := { s with locals := s.locals.tail }

/-- Binds a name in the innermost frame. -/
def declare (s : Scopes) (name : String) (value : Value) : Scopes :=
  match s with
  | ⟨[], globals⟩ => ⟨[], globals.insert name value⟩
  | ⟨f :: locals, globals⟩ => ⟨f.insert name value :: locals, globals⟩

/-- The value of a name in the innermost frame that binds it. -/
def resolve? (s : Scopes) (name : String) : Option Value :=
  (s.locals ++ [s.globals]).findSome? (·.find? name)

@[simp] theorem depth_empty : empty.depth = 1 := rfl

@[simp] theorem depth_push (s : Scopes) (f : Frame) : (s.push f).depth = s.depth + 1 := rfl

@[simp] theorem pop_push (s : Scopes) (f : Frame) : (s.push f).pop = s := rfl

@[simp] theorem depth_declare (s : Scopes) (name : String) (value : Value) :
    (s.declare name value).depth = s.depth := by
  obtain ⟨_ | ⟨f, locals⟩, globals⟩ := s <;> rfl

/-- An inner frame hides the bindings of the outer ones. -/
theorem resolve?_push (s : Scopes) (f : Frame) (name : String) :
    (s.push f).resolve? name = (f.find? name).or (s.resolve? name) := by
  rw [resolve?, resolve?, push, List.cons_append, List.findSome?_cons]
  cases f.find? name <;> rfl

@[simp] theorem resolve?_declare_self (s : Scopes) (name : String) (value : Value) :
    (s.declare name value).resolve? name = some value := by
  obtain ⟨_ | ⟨f, locals⟩, globals⟩ := s <;>
    simp only [declare, resolve?, List.nil_append, List.cons_append, List.findSome?_cons,
      Frame.find?_insert_self]

theorem resolve?_declare_of_ne (s : Scopes) {name other : String} (value : Value)
    (h : other ≠ name) : (s.declare name value).resolve? other = s.resolve? other := by
  obtain ⟨_ | ⟨f, locals⟩, globals⟩ := s <;>
    simp only [declare, resolve?, List.nil_append, List.cons_append, List.findSome?_cons,
      Frame.find?_insert_of_ne _ _ h]

end Scopes

end ArrowCalc
