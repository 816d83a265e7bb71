import ActorScript.World.Load

/-! # The stock world

The classes, line specials and sounds every script can count on.
-/

namespace ActorScript.World

def actorFields : List FieldDecl :=
  [⟨"health", "int", []⟩, ⟨"spawnhealth", "int", ["readonly"]⟩, ⟨"speed", "double", []⟩,
    ⟨"angle", "double", []⟩, ⟨"pitch", "double", []⟩, ⟨"alpha", "float", []⟩,
    ⟨"flags", "uint", []⟩, ⟨"frame", "uint8", []⟩, ⟨"sprite", "int16", []⟩,
    ⟨"friendly", "bool", []⟩, ⟨"tid", "int", []⟩, ⟨"special", "int", []⟩,
    ⟨"args", "int[5]", []⟩, ⟨"target", "Actor", []⟩, ⟨"master", "Actor", []⟩,
    ⟨"species", "name", []⟩, ⟨"tag", "string", []⟩, ⟨"activesound", "sound", []⟩,
    ⟨"bloodcolor", "color", []⟩, ⟨"curstate", "state", []⟩,
    ⟨"missiletype", "class<Actor>", []⟩, ⟨"names", "name[2]", []⟩,
    ⟨"score", "int", ["deprecated"]⟩, ⟨"internalcounter", "int", ["private"]⟩,
    ⟨"defaultspeed", "double", ["static"]⟩]

def actorFunctions : List FunctionDecl :=
  [⟨"A_Chase", .action, [], []⟩,
    ⟨"A_Explode", .action, ["int", "int"], ["int"]⟩,
    ⟨"A_PlaySound", .action, ["sound", "double"], []⟩,
    ⟨"A_Jump", .action, ["int", "state"], ["state"]⟩,
    ⟨"Distance2D", .method, ["Actor"], ["double"]⟩,
    ⟨"CountInv", .method, ["name"], ["int"]⟩,
    ⟨"SetTag", .method, ["string"], []⟩,
    ⟨"GetDefaultSpeed", .static, ["class<Actor>"], ["double"]⟩]

def actor : ClassDecl :=
  { name := "Actor"
    fields := actorFields
    constants :=
      [("DEFAULT_HEALTH", .int 1000), ("MELEE_RANGE", .float 64.0), ("TAGNAME", .string "actor")]
    functions := actorFunctions
    states := [⟨"Spawn", 1⟩, ⟨"Null", 1⟩] }

def inventory : ClassDecl :=
  { name := "Inventory"
    parent := "Actor"
    fields := [⟨"amount", "int", []⟩, ⟨"maxamount", "int", []⟩]
    states := [⟨"Spawn", 1⟩, ⟨"Pickup", 2⟩] }

def doomImp : ClassDecl :=
  { name := "DoomImp"
    parent := "Actor"
    fields := [⟨"fireballs", "int", []⟩]
    constants := [("IMP_SPEED", .int 8)]
    functions := [⟨"A_TroopAttack", .action, [], []⟩]
    states :=
      [⟨"Spawn", 2⟩, ⟨"See", 8⟩, ⟨"Melee", 3⟩, ⟨"Pain", 2⟩, ⟨"Death", 5⟩, ⟨"Death.Fire", 4⟩,
        ⟨"Raise", 5⟩] }

def darkImp : ClassDecl :=
  { name := "DarkImp"
    parent := "DoomImp"
    states := [⟨"Spawn", 2⟩] }

def stockDeclarations : Declarations :=
  { classes := [actor, inventory, doomImp, darkImp]
    constants :=
      [("GAMENAME", .string "actorc"), ("MAXPLAYERS", .int 8), ("PI", .float 3.141592653589793),
        ("TICRATE", .int 35)]
    specials :=
      [⟨"Door_Close", 10, 2, 3⟩, ⟨"Door_Open", 11, 2, 3⟩, ⟨"Floor_LowerToLowest", 21, 2, 2⟩,
        ⟨"Teleport", 70, 1, 3⟩, ⟨"ACS_Execute", 80, 1, 5⟩, ⟨"ACS_NamedExecute", -80, 1, 5⟩,
        ⟨"Thing_Damage", 119, 2, 3⟩, ⟨"Radius_Quake", 120, 5, 5⟩]
    sounds :=
      ["weapons/pistol", "imp/sight", "imp/death", "misc/teleport", "world/quake"] }

def stock : World :=
  ((declare stockDeclarations).run.run empty).2

end ActorScript.World
