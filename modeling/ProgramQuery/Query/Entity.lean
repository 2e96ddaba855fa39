/-
  ProgramQuery.Query.Entity

  What a query can speak about: the kinds of entities that synonyms stand for,
  their attributes, and the relationships between them.
-/

import ProgramQuery.Program.Statement

namespace ProgramQuery

/-! ## Entities -/

/-- The kinds of entities that a synonym can stand for. -/
inductive Entity where
  | stmt
  | read
  | print
  | call
  | whileLoop
  | ifElse
  | assign
  | variable
  | constant
  | procedure
  deriving DecidableEq, Repr

namespace Entity

/-- The keyword that declares synonyms of a kind. -/
def keyword : Entity → String
  | .stmt => "stmt"
  | .read => "read"
  | .print => "print"
  | .call => "call"
  | .whileLoop => "while"
  | .ifElse => "if"
  | .assign => "assign"
  | .variable => "variable"
  | .constant => "constant"
  | .procedure => "procedure"

/-- All kinds. -/
def all : List Entity :=
  [.stmt, .read, .print, .call, .whileLoop, .ifElse, .assign, .variable, .constant, .procedure]

/-- The kind that a keyword declares. -/
def ofKeyword? (s : String) : Option Entity :=
  all.find? (·.keyword == s)

/-- Whether synonyms of the kind stand for statements. -/
def isStatement : Entity → Bool
  | .variable | .constant | .procedure => false
  | _ => true

/-- The type of the statements of a kind, if it has only one. -/
def statementType? : Entity → Option StatementType
  | .read => some .read
  | .print => some .print
  | .call => some .call
  | .whileLoop => some .whileLoop
  | .ifElse => some .ifElse
  | .assign => some .assign
  | _ => none

end Entity

/-! ## Attributes -/

/-- The attributes of entities. -/
inductive Attribute where
  | procName
  | varName
  | value
  | stmtNo
  deriving DecidableEq, Repr

/-- The two kinds of values that attributes have. -/
inductive AttributeKind where
  | name
  | integer
  deriving DecidableEq, Repr

namespace Attribute

/-- An attribute as it is written. -/
def text : Attribute → String
  | .procName => "procName"
  | .varName => "varName"
  | .value => "value"
  | .stmtNo => "stmt#"

/-- All attributes. -/
def all : List Attribute :=
  [.procName, .varName, .value, .stmtNo]

/-- The attribute that a word names. -/
def ofText? (s : String) : Option Attribute :=
  all.find? (·.text == s)

/-- The kind of values of an attribute. -/
def kind : Attribute → AttributeKind
  | .procName | .varName => .name
  | .value | .stmtNo => .integer

end Attribute

namespace Entity

/-- Whether entities of a kind have an attribute. -/
def supports (e : Entity) : Attribute → Bool
  | .stmtNo => e.isStatement
  | .procName => e == .procedure || e == .call
  | .varName => e == .variable || e == .read || e == .print
  | .value => e == .constant

/-- Whether an attribute is the name of something else than the entity itself:
    the procedure that is called, or the variable that is read or printed. -/
def isIndirect : Entity → Attribute → Bool
  | .call, .procName => true
  | .read, .varName => true
  | .print, .varName => true
  | _, _ => false

end Entity

/-! ## Synonyms -/

/-- A name that stands for any entity of a kind. -/
structure Synonym where
  name : String
  entity : Entity
  deriving DecidableEq, Repr

/-- An attribute of a synonym. -/
structure AttributeRef where
  synonym : Synonym
  attr : Attribute
  deriving DecidableEq, Repr

namespace AttributeRef

/-- An attribute of a synonym as it is written. -/
def text (a : AttributeRef) : String :=
  a.synonym.name ++ "." ++ a.attr.text

/-- Whether the attribute names something else than the entity itself. -/
def isIndirect (a : AttributeRef) : Bool :=
  a.synonym.entity.isIndirect a.attr

end AttributeRef

/-! ## Relationships -/

/-- The relationships as they are written. -/
inductive RelationshipName where
  | follows
  | followsStar
  | parent
  | parentStar
  | calls
  | callsStar
  | next
  | nextStar
  | affects
  | uses
  | modifies
  deriving DecidableEq, Repr

namespace RelationshipName

/-- A relationship as it is written. -/
def text : RelationshipName → String
  | .follows => "Follows"
  | .followsStar => "Follows*"
  | .parent => "Parent"
  | .parentStar => "Parent*"
  | .calls => "Calls"
  | .callsStar => "Calls*"
  | .next => "Next"
  | .nextStar => "Next*"
  | .affects => "Affects"
  | .uses => "Uses"
  | .modifies => "Modifies"

/-- All relationships. -/
def all : List RelationshipName :=
  [.follows, .followsStar, .parent, .parentStar, .calls, .callsStar, .next, .nextStar, .affects,
    .uses, .modifies]

/-- The relationship that a word names. -/
def ofText? (s : String) : Option RelationshipName :=
  all.find? (·.text == s)

end RelationshipName

/-- The relationships by the kind of their first members: Uses and Modifies relate
    statements or procedures to variables. -/
inductive Relationship where
  | follows
  | followsStar
  | parent
  | parentStar
  | calls
  | callsStar
  | next
  | nextStar
  | affects
  | uses
  | usesProc
  | modifies
  | modifiesProc
  deriving DecidableEq, Repr

namespace Relationship

/-- The relationship as it is written. -/
def name : Relationship → RelationshipName
  | .follows => .follows
  | .followsStar => .followsStar
  | .parent => .parent
  | .parentStar => .parentStar
  | .calls => .calls
  | .callsStar => .callsStar
  | .next => .next
  | .nextStar => .nextStar
  | .affects => .affects
  | .uses | .usesProc => .uses
  | .modifies | .modifiesProc => .modifies

/-- Whether something can be related to itself. -/
def mayBeReflexive : Relationship → Bool
  | .nextStar | .affects => true
  | _ => false

end Relationship

end ProgramQuery
