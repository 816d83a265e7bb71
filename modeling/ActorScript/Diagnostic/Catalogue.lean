import ActorScript.Diagnostic.Code
import ActorScript.Text.Fold

/-! # Explanations

What each diagnostic code means, as the lines of a short text with a heading.
-/

namespace ActorScript.Code

/-- Lines of the explanation below its heading. -/
def explanation : Code → List String
  | .unexpectedCharacter =>
      ["The source contains a character that cannot start any token, or a string,",
        "name or block comment that is never closed.",
        "",
        "**Example:**",
        "",
        "    health = $5;",
        "",
        "Remove the stray character. Strings use double quotes (`\"text\"`), names use",
        "single quotes (`'Name'`) and must end on the same line."]
  | .unexpectedToken =>
      ["The parser found a token that cannot appear at this point.",
        "",
        "**Common causes:**",
        "- a missing `;` between two statements",
        "- an unbalanced parenthesis or bracket",
        "- an operator with a missing operand, as in `a = ;`",
        "",
        "Parsing resumes at the next `;` or `\x7d`, so later statements are still checked."]
  | .unexpectedEnd =>
      ["The source ended in the middle of a statement or expression. Usually the",
        "final `;` or a closing `)` or `\x7d` is missing.",
        "",
        "**Example:**",
        "",
        "    A_Chase()"]
  | .malformedLiteral =>
      ["An integer literal does not fit in 32 bits, or an array size is not an",
        "integer constant. Literals above 2147483647 are read as `uint` and must not",
        "exceed 4294967295."]
  | .incompatibleTypes =>
      ["A value cannot be converted to the type the context requires. This covers",
        "assignments, the branches of `?:` and explicit conversions.",
        "",
        "**Example:**",
        "",
        "    Actor a = 3;",
        "",
        "Pointers only convert to pointers of a compatible class, and numbers only to",
        "numbers."]
  | .numericExpected =>
      ["An arithmetic operator, comparison or numeric builtin received a value that",
        "is not an integer or a float, such as a string or an object pointer.",
        "",
        "**Example:**",
        "",
        "    return \"5\" * 2;"]
  | .integerExpected =>
      ["Shifts, `%` on some operand kinds and the bitwise operators `& | ^ ~` need",
        "integer operands. Convert floats explicitly with `int(...)`."]
  | .floatTruncated =>
      ["A floating point value is implicitly converted to an integer and loses its",
        "fraction. This is a warning; write `int(x)` to state the intent and silence it."]
  | .divisionByZero =>
      ["The right operand of `/` or `%` is the constant zero. This is rejected at",
        "compile time whether or not the left operand is constant."]
  | .aggregateAssignment =>
      ["Arrays and structs cannot be assigned as a whole. Assign their elements or",
        "members one at a time."]
  | .boolOperator =>
      ["Unary minus and `~` are not defined for `bool`. Use `!` to negate a",
        "condition."]
  | .orderNeedsNumbers =>
      ["The three-way comparison `a <>= b` yields -1, 0 or 1 and is only defined for",
        "numeric operands."]
  | .unknownColor =>
      ["A string converted to `color` is neither a known color name nor a hex",
        "triplet such as `\"ff 80 00\"`. The color becomes black."]
  | .notConstant =>
      ["The expression must be evaluated at compile time but refers to something",
        "only known at run time, such as a member variable or a function call."]
  | .incompatibleClasses =>
      ["A class-type conversion names a class that does not descend from the",
        "target class.",
        "",
        "**Example:**",
        "",
        "    class<Inventory>('DoomImp')"]
  | .unknownClassName =>
      ["A constant class-type conversion names no known class. The value becomes",
        "`null`. This is fatal only with `--strict`."]
  | .nameAsNumber =>
      ["A name literal was used where a number is expected. The lax dialect accepts",
        "this and substitutes zero; otherwise it is an error."]
  | .unknownType =>
      ["A declaration or conversion names a type that is neither built in nor a",
        "known class or struct."]
  | .unknownIdentifier =>
      ["The name is not a local variable, a member of the current class or a global",
        "constant. A suggestion is offered when a visible name is close in spelling."]
  | .privateMember =>
      ["The member variable is private to the class that declares it and cannot be",
        "read from a descendant."]
  | .deprecatedMember =>
      ["The member variable still works but is scheduled for removal. Use its",
        "replacement."]
  | .memberNotAccessible =>
      ["A member variable was used where no suitable object is available: from a",
        "static function, through a restricted self pointer, or as a static member."]
  | .notAddressable =>
      ["Assignment, `++`/`--`, `sizeof` and `alignof` need a variable or member.",
        "Constants and temporary results have no location.",
        "",
        "**Example:**",
        "",
        "    (health + 1) = 3;"]
  | .badArray =>
      ["Indexing was applied to something that is not an array, the index is not an",
        "integer, or a local variable was declared with a type that cannot live in a",
        "register."]
  | .badDeclaration =>
      ["A local variable is declared twice in the same block, or outside any block."]
  | .invalidMemberAccess =>
      ["`object.name` needs an object pointer on the left and a member variable on",
        "the right. Functions are called with `object.name(...)`."]
  | .constantSize =>
      ["`sizeof` and `alignof` describe storage, and constants have none."]
  | .jumpOutsideLoop =>
      ["`break` and `continue` are only valid inside `while`, `do` and `for` bodies."]
  | .infiniteLoop =>
      ["The loop condition is constantly true and the body does nothing, so the",
        "function never finishes.",
        "",
        "**Example:**",
        "",
        "    while (true) ;"]
  | .inconsistentReturns =>
      ["All `return` statements in a function must deduce to the same type. A bare",
        "`return;` cannot be mixed with returns that carry a value."]
  | .labelWithoutClass =>
      ["A state label was used outside a class, or its scope names an unknown class,",
        "as in `state(\"NoSuchClass::See\")`."]
  | .scopeNotAncestor =>
      ["A scoped state label `Class::Label` must name the current class or one of",
        "its ancestors. `Super::Label` names the parent."]
  | .unknownLabel =>
      ["The label does not exist in the named class. The jump is looked up again at",
        "run time, starting from the actor's own class rather than the named one.",
        "This is fatal only with `--strict`."]
  | .badStateIndex =>
      ["A numeric state offset is negative, used outside a class, or points past the",
        "states the class owns."]
  | .runtimeStateIndex =>
      ["A state offset computed at run time needs the calling state, which only",
        "action functions receive."]
  | .unknownFunction =>
      ["The call names no member function, math function, line special or builtin."]
  | .argumentCount =>
      ["The call passes fewer arguments than the function requires or more than it",
        "accepts.",
        "",
        "**Example:**",
        "",
        "    random(1);"]
  | .callNeedsObject =>
      ["A non-static function was called without an object, for instance from a",
        "static function or through a class pointer."]
  | .badArgument =>
      ["An argument has the wrong kind, such as a string passed to a line special",
        "that expects an integer. Named-script specials accept a name as their first",
        "argument."]
  | .namedGenerator =>
      ["Only the random builtins accept a random number generator name in brackets,",
        "as in `random[Boom](1, 6)`."]
  | .badCallTarget =>
      ["The left side of `object.Function(...)` must be an object or class pointer."]
  | .codeLimit =>
      ["The function ran out of registers, a constant pool overflowed its operand",
        "field, or a jump is too far to encode. Split the function into smaller ones."]
  | .badEnvironment =>
      ["The symbol environment passed with `--env` is not valid JSON, or refers to",
        "an unknown parent class or type."]

def explain (c : Code) : String :=
  "## " ++ c.id ++ ": " ++ c.summary ++ "\n\n" ++
    String.join (c.explanation.map (· ++ "\n"))

/-- The code of an identifier in any letter case. -/
def find? (id : String) : Option Code :=
  all.find? fun c => Text.sameName c.id id

end ActorScript.Code
