import StyleHoist.ClassId

/-! The classes known to one run. A registry binds declarations to class names,
starts from the rules of a stylesheet, and keeps the bindings made since then
in the order in which they were made. No class stands for two declarations. -/
namespace StyleHoist

/-- Two declarations that claim one class, and the document in which that came up. -/
structure Collision where
  id : ClassId
  existing : Declaration
  incoming : Declaration
  source : Option String
deriving DecidableEq, Repr

/-- Names the document, unless one is named already. -/
def Collision.inSource (collision : Collision) (name : String) : Collision :=
  { collision with source := collision.source.or (some name) }

def Collision.message (collision : Collision) : String :=
  let place := match collision.source with
    | some name => " in " ++ name
    | none => ""
  "class id collision on '" ++ String.ofList collision.id.text ++ "'" ++ place ++ ": '" ++
    String.ofList collision.existing.text ++ "' is already registered, refusing to merge '" ++
    String.ofList collision.incoming.text ++ "'"

structure Registry where
  classPrefix : Text
  known : List Binding
  pending : List Binding
deriving DecidableEq, Repr

structure Allocation where
  id : ClassId
  /-- Whether the class is new and has to be written to the stylesheet. -/
  fresh : Bool
deriving DecidableEq, Repr

namespace Registry

def empty (classPrefix : Text) : Registry := ⟨classPrefix,[],[]⟩

/-- The class of a declaration. -/
def lookup (registry : Registry) (declaration : Declaration) : Option ClassId :=
  (registry.known.find? (·.declaration = declaration)).map (·.id)

/-- The declaration of a class. -/
def owner (registry : Registry) (id : ClassId) : Option Declaration :=
  (registry.known.find? (·.id = id)).map (·.declaration)

def size (registry : Registry) : Nat := registry.known.length

/-- The conflict that a binding would cause. -/
def conflict? (registry : Registry) (binding : Binding) : Option Collision :=
  match registry.owner binding.id with
  | none => none
  | some existing =>
    if existing = binding.declaration then none
    else some ⟨binding.id,existing,binding.declaration,none⟩

/-- Records a binding that the stylesheet already has. The first class of a declaration stays. -/
def register (registry : Registry) (binding : Binding) : Except Collision Registry :=
  match registry.conflict? binding with
  | some collision => .error collision
  | none =>
    match registry.lookup binding.declaration with
    | some _ => .ok registry
    | none => .ok { registry with known := registry.known ++ [binding] }

/-- The class of a declaration, made and noted as pending if there is none yet. -/
def allocate (registry : Registry) (declaration : Declaration) :
    Except Collision (Allocation × Registry) :=
  match registry.lookup declaration with
  | some id => .ok (⟨id,false⟩,registry)
  | none =>
    let binding : Binding := ⟨declaration,ClassId.derive registry.classPrefix declaration⟩
    match registry.conflict? binding with
    | some collision => .error collision
    | none =>
      .ok (⟨binding.id,true⟩,
        { registry with known := registry.known ++ [binding], pending := registry.pending ++ [binding] })

end Registry

end StyleHoist
