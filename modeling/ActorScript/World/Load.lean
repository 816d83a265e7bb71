import ActorScript.World.Declaration
import ActorScript.World.TypeName

/-! # Loading declarations

A load adds to a world: global constants, line specials and sounds first, then
all class names, so that types can refer to any class, then the classes one by
one. What was added before a fault stays.
-/

namespace ActorScript

inductive EnvError where
  /-- The text is no environment. -/
  | malformed
  | duplicateClass (name : String)
  | unknownParent (cls parent : String)
  | unknownType (type place : String)
  | badFlag (flag : String)
  deriving DecidableEq, Repr

def EnvError.message : EnvError → String
  | .malformed => "invalid environment JSON"
  | .duplicateClass name => "class '" ++ name ++ "' is defined twice"
  | .unknownParent cls parent =>
      "class '" ++ cls ++ "' inherits from unknown class '" ++ parent ++ "'"
  | .unknownType type place => "unknown type '" ++ type ++ "' in " ++ place
  | .badFlag flag => "unknown field flag '" ++ flag ++ "'"

/-- A step of a load, which may fail and keeps what it changed. -/
abbrev Loading := ExceptT EnvError (StateM World)

namespace World

def addGlobal (w : World) (name : String) (value : Constant) : World :=
  { w with
    globalNames := w.globalNames ++ [name]
    globals := putByKey (Text.fold name) value w.globals }

/-- A later special takes the place of an earlier one of its name. -/
def addSpecial (w : World) (special : LineSpecial) : World :=
  { w with
    specials := w.specials.filter (fun s => !Text.sameName s.name special.name) ++ [special] }

/-- A sound keeps the number it has. -/
def addSound (w : World) (sound : String) : World :=
  if w.soundId sound == 0 then { w with sounds := w.sounds ++ [sound] } else w

def registerClass (name : String) : Loading Unit := do
  let w ← get
  if (w.findClass name).isSome then throw (.duplicateClass name)
  set { w with classes := w.classes.push { name } }

/-- The class a class inherits from, which is another one. -/
def findParent (w : World) (id : ClassId) (cls : String) :
    Option String → Except EnvError (Option ClassId)
  | none => .ok none
  | some parent =>
      match w.findClass parent with
      | some p => if p == id then .error (.unknownParent cls parent) else .ok (some p)
      | none => .error (.unknownParent cls parent)

def readType (w : World) (type place : String) : Except EnvError Ty :=
  match w.parseType type with
  | some ty => .ok ty
  | none => .error (.unknownType type place)

def readFlag (flags : FieldFlags) (flag : String) : Except EnvError FieldFlags :=
  match flag with
  | "private" => .ok { flags with isPrivate := true }
  | "deprecated" => .ok { flags with isDeprecated := true }
  | "static" => .ok { flags with isStatic := true }
  | "readonly" => .ok { flags with isReadonly := true }
  | other => .error (.badFlag other)

/-- Least multiple of `align` from `offset` on. -/
def alignUp (offset align : Nat) : Nat :=
  (offset + align - 1) / align * align

structure ClassLayout where
  size : Nat
  members : List (String × Member) := []

/-- Puts a field behind the ones before it; a static field takes no place. -/
def addField (w : World) (cls : String) (layout : ClassLayout) (decl : FieldDecl) :
    Except EnvError ClassLayout := do
  let ty ← w.readType decl.type ("field '" ++ cls ++ "." ++ decl.name ++ "'")
  let flags ← decl.flags.foldlM readFlag {}
  let offset := if flags.isStatic then 0 else alignUp layout.size (max ty.align 1)
  .ok
    { size := if flags.isStatic then layout.size else offset + ty.size
      members := putByKey (Text.fold decl.name) (.field ⟨decl.name, ty, offset, flags⟩)
        layout.members }

def readSignature (w : World) (id : ClassId) (cls : String) (decl : FunctionDecl) :
    Except EnvError Signature := do
  let place := " of '" ++ cls ++ "." ++ decl.name ++ "'"
  let params ← decl.params.mapM (w.readType · ("parameters" ++ place))
  let returns ← decl.returns.mapM (w.readType · ("returns" ++ place))
  .ok { name := decl.name, kind := decl.kind, params, returns, owner := id }

/-- Members of a class: fields, then constants, then functions. -/
def layOut (w : World) (id : ClassId) (parent : Option ClassId) (decl : ClassDecl) :
    Except EnvError ClassLayout := do
  let inherited := (parent.bind w.class?).elim 0 Class.size
  let fields ← decl.fields.foldlM (w.addField decl.name) { size := inherited }
  let members := decl.constants.foldl
    (fun members (name, value) => putByKey (Text.fold name) (.const value) members) fields.members
  let members ← decl.functions.foldlM
    (fun members f => do
      let signature ← w.readSignature id decl.name f
      .ok (putByKey (Text.fold f.name) (.function signature) members)) members
  .ok { size := fields.size, members }

def framesOf (id : ClassId) (decl : StateDecl) : List State :=
  (List.range (max decl.frames 1)).map fun frame => { owner := id, label := decl.label, frame }

/-- Appends the sequences of a class to the states, collecting their labels. -/
def addStates (id : ClassId) :
    List StateDecl → Array State → Array State × List (String × StateId)
  | [], states => (states, [])
  | decl :: rest, states =>
      let (all, labels) := addStates id rest (states ++ framesOf id decl)
      (all, (Text.fold decl.label, states.size) :: labels)

def defineClass (id : ClassId) (decl : ClassDecl) : Loading Unit := do
  let w ← get
  let parent ← w.findParent id decl.name decl.parent
  let layout ← w.layOut id parent decl
  let (states, labels) := addStates id decl.states w.states
  let cls : Class :=
    { name := w.className id
      parent
      size := alignUp layout.size 8
      members := layout.members
      labels
      firstState := w.states.size
      ownedStates := states.size - w.states.size }
  set { w with states, classes := w.classes.setIfInBounds id cls }

/-- Fills in registered classes, the first of which has the number `first`. -/
def defineClasses : ClassId → List ClassDecl → Loading Unit
  | _, [] => pure ()
  | first, decl :: rest => do
      defineClass first decl
      defineClasses (first + 1) rest

def declare (d : Declarations) : Loading Unit := do
  modify fun w => d.constants.foldl (fun w (name, value) => w.addGlobal name value) w
  modify fun w => d.specials.foldl addSpecial w
  modify fun w => d.sounds.foldl addSound w
  let first := (← get).classes.size
  d.classes.forM fun decl => registerClass decl.name
  defineClasses first d.classes

def loadText (text : String) : Loading Unit :=
  match Declarations.parse text with
  | some d => declare d
  | none => throw .malformed

/-- Adds an environment text to a world. The world is returned also when the load fails. -/
def load (w : World) (text : String) : Except EnvError Unit × World :=
  (loadText text).run.run w

end World

end ActorScript
