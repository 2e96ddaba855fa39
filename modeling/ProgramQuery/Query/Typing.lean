/-
  ProgramQuery.Query.Typing

  Resolving the synonyms of a query and checking that they fit their places.

  A text that is no query is refused before any of this, so a query with both
  kinds of faults reports its syntax.  The checks run in the order of the
  text: declarations, result, clauses, and in a clause from left to right.  A draft
  need not come from a text: its relationships are words and its attributes may be
  missing, which are faults of syntax that are found here.
-/

import ProgramQuery.Query.Draft

namespace ProgramQuery

/-! ## Faults -/

/-- What the synonym in a place has to stand for. -/
inductive Role where
  | variable
  | procedure
  | statement
  deriving DecidableEq, Repr

namespace Role

/-- A role as a fault names it. -/
def text : Role → String
  | .variable => "variable"
  | .procedure => "procedure"
  | .statement => "statement"

/-- Whether entities of a kind fit a role. -/
def admits : Role → Entity → Bool
  | .variable, e => e == .variable
  | .procedure, e => e == .procedure
  | .statement, e => e.isStatement

end Role

/-- Why a query makes no sense. -/
inductive SemanticFault where
  | declaredTwice (name : String)
  | undeclared (name : String)
  | noAttribute (synonym : Synonym) (attr : Attribute)
  | wildcardFirst (relationship : RelationshipName)
  | cannotBeFirst (name : String) (relationship : RelationshipName)
  | wrongRole (name : String) (role : Role)
  | patternForm (synonym : Synonym)
  | comparedKinds
  deriving DecidableEq, Repr

/-- The wording of a fault. -/
def SemanticFault.message : SemanticFault → String
  | .declaredTwice name => "synonym '" ++ name ++ "' is declared more than once"
  | .undeclared name => "synonym '" ++ name ++ "' is not declared"
  | .noAttribute synonym attr =>
    synonym.entity.keyword ++ " synonym '" ++ synonym.name ++ "' has no attribute " ++
      attr.text
  | .wildcardFirst relationship =>
    "first argument of " ++ relationship.text ++ " cannot be a wildcard"
  | .cannotBeFirst name relationship =>
    "'" ++ name ++ "' cannot appear first in " ++ relationship.text
  | .wrongRole name role => "'" ++ name ++ "' must be a " ++ role.text ++ " synonym"
  | .patternForm synonym =>
    "pattern cannot be applied to " ++ synonym.entity.keyword ++ " synonym '" ++
      synonym.name ++ "' in this form"
  | .comparedKinds => "with compares values of different types"

/-- Why a text is refused as a query. -/
inductive QueryFault where
  | syntactic (fault : SyntaxFault)
  | semantic (fault : SemanticFault)
  deriving DecidableEq, Repr

namespace QueryFault

/-- The wording of a fault. -/
def message : QueryFault → String
  | .syntactic fault => "syntax error: " ++ fault.message
  | .semantic fault => "semantic error: " ++ fault.message

/-- The one answer to a query with this fault. -/
def kind : QueryFault → String
  | .syntactic _ => "SyntaxError"
  | .semantic _ => "SemanticError"

end QueryFault

/-! ## Synonyms -/

/-- The declared synonyms. -/
abbrev Scope := List Synonym

namespace Scope

/-- The scope of some declarations, which must not repeat a name. -/
def declare (scope : Scope) : List (Entity × String) → Except QueryFault Scope
  | [] => .ok scope
  | (entity, name) :: rest =>
    if scope.any (·.name == name) then
      .error (.semantic (.declaredTwice name))
    else
      declare (scope ++ [⟨name, entity⟩]) rest

/-- The synonym of a name. -/
def resolve (scope : Scope) (name : String) : Except QueryFault Synonym :=
  match scope.find? (·.name == name) with
  | some s => .ok s
  | none => .error (.semantic (.undeclared name))

/-- An attribute of a synonym, which has to have it. -/
def attrOf (s : Synonym) (a : Attribute) : Except QueryFault AttributeRef :=
  if s.entity.supports a then .ok ⟨s, a⟩ else .error (.semantic (.noAttribute s a))

/-! ## Results -/

/-- An element of a result. -/
def element (scope : Scope) (e : Draft.Element) : Except QueryFault Element := do
  let s ← scope.resolve e.name
  match e.attr with
  | none => .ok (.synonym s)
  | some a => do
    let r ← attrOf s a
    .ok (.attr r)

/-- A result; a synonym called `BOOLEAN` is selected like any other. -/
def selection (scope : Scope) : Draft.Selection → Except QueryFault Selection
  | .boolean =>
    match scope.find? (·.name == "BOOLEAN") with
    | some s => .ok (.tuple [.synonym s])
    | none => .ok .boolean
  | .tuple elements => do
    let es ← elements.mapM scope.element
    .ok (.tuple es)

/-! ## Clauses -/

/-- An argument. -/
def ref (scope : Scope) : Draft.Ref → Except QueryFault Ref
  | .name text => do
    let s ← scope.resolve text
    .ok (.synonym s)
  | .ident text => .ok (.ident text)
  | .integer n => .ok (.integer n)
  | .wildcard => .ok .wildcard

/-- Checks that an argument, if it is a synonym, fits a role. -/
def require (role : Role) : Ref → Except QueryFault Unit
  | .synonym s =>
    if role.admits s.entity then .ok () else .error (.semantic (.wrongRole s.name role))
  | _ => .ok ()

/-- Whether the first argument of Uses or Modifies is a procedure. -/
def procedureFirst (relationship : RelationshipName) : Ref → Except QueryFault Bool
  | .wildcard => .error (.semantic (.wildcardFirst relationship))
  | .integer _ => .ok false
  | .ident _ => .ok true
  | .synonym s =>
    if s.entity = .procedure then .ok true
    else if s.entity.isStatement then .ok false
    else .error (.semantic (.cannotBeFirst s.name relationship))

/-- A relationship between two things of one role. -/
def between (role : Role) (relationship : Relationship) (lhs rhs : Ref) :
    Except QueryFault Condition := do
  require role lhs
  require role rhs
  .ok (.suchThat relationship lhs rhs)

/-- A relationship of statements or procedures to variables. -/
def toVariable (name : RelationshipName) (ofStatement ofProcedure : Relationship) (lhs rhs : Ref) :
    Except QueryFault Condition := do
  let isProcedure ← procedureFirst name lhs
  require .variable rhs
  .ok (.suchThat (if isProcedure then ofProcedure else ofStatement) lhs rhs)

/-- A known relationship with its resolved arguments. -/
def related (lhs rhs : Ref) : RelationshipName → Except QueryFault Condition
  | .follows => between .statement .follows lhs rhs
  | .followsStar => between .statement .followsStar lhs rhs
  | .parent => between .statement .parent lhs rhs
  | .parentStar => between .statement .parentStar lhs rhs
  | .next => between .statement .next lhs rhs
  | .nextStar => between .statement .nextStar lhs rhs
  | .affects => between .statement .affects lhs rhs
  | .calls => between .procedure .calls lhs rhs
  | .callsStar => between .procedure .callsStar lhs rhs
  | .uses => toVariable .uses .uses .usesProc lhs rhs
  | .modifies => toVariable .modifies .modifies .modifiesProc lhs rhs

/-- The relationship of a word with its resolved arguments. -/
def suchThat (lhs rhs : Ref) (word : String) : Except QueryFault Condition :=
  match RelationshipName.ofText? word with
  | some name => related lhs rhs name
  | none => .error (.syntactic (.unknownRelationship word))

/-- Whether a pattern of this form can be asked of entities of a kind. -/
def patternFits (entity : Entity) (expr : ExprSpec) (form : Draft.PatternForm) : Bool :=
  match entity, form with
  | .assign, .short => true
  | .whileLoop, .short => expr == .wildcard
  | .ifElse, .long => expr == .wildcard
  | _, _ => false

/-- A side of a comparison. -/
def withRef (scope : Scope) : Draft.WithRef → Except QueryFault WithRef
  | .ident text => .ok (.ident text)
  | .integer digits => .ok (.integer digits)
  | .attr e => do
    let s ← scope.resolve e.name
    match e.attr with
    | none => .error (.syntactic .expectedAttributeRef)
    | some a => do
      let r ← attrOf s a
      .ok (.attr r)

/-- What a clause says. -/
def condition (scope : Scope) : Draft.Condition → Except QueryFault Condition
  | .suchThat word lhs rhs => do
    let lhs ← scope.ref lhs
    let rhs ← scope.ref rhs
    suchThat lhs rhs word
  | .pattern name var expr form => do
    let s ← scope.resolve name
    if patternFits s.entity expr form then do
      let var ← scope.ref var
      require .variable var
      .ok (.pattern s var expr)
    else
      .error (.semantic (.patternForm s))
  | .compare lhs rhs => do
    let lhs ← scope.withRef lhs
    let rhs ← scope.withRef rhs
    if lhs.kind = rhs.kind then .ok (.compare lhs rhs) else .error (.semantic .comparedKinds)

/-- A clause. -/
def clause (scope : Scope) (c : Draft.Clause) : Except QueryFault Clause := do
  let condition ← scope.condition c.condition
  .ok ⟨condition, c.negated⟩

end Scope

/-! ## Queries -/

/-- A query with its synonyms resolved. -/
def Draft.resolve (d : Draft) : Except QueryFault Query := do
  let scope ← Scope.declare [] d.declarations
  let selection ← scope.selection d.selection
  let clauses ← d.clauses.mapM scope.clause
  .ok ⟨scope, selection, clauses⟩

/-- The query of a text. -/
def Query.read (text : String) : Except QueryFault Query :=
  match Draft.read text with
  | .error fault => .error (.syntactic fault)
  | .ok draft => draft.resolve

end ProgramQuery
