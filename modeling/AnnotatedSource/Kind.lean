/-!
The closed vocabulary of syntax node kinds.  Every kind has a name, under which parsers report it,
and an index, its place in the vocabulary.
-/

set_option autoImplicit false
set_option relaxedAutoImplicit false

namespace AnnotatedSource

inductive NodeKind where
  | program
  | expressionStatement
  | blockStatement
  | staticBlock
  | emptyStatement
  | debuggerStatement
  | withStatement
  | returnStatement
  | labeledStatement
  | breakStatement
  | continueStatement
  | ifStatement
  | switchStatement
  | switchCase
  | throwStatement
  | tryStatement
  | catchClause
  | whileStatement
  | doWhileStatement
  | forStatement
  | forInStatement
  | forOfStatement
  | functionDeclaration
  | variableDeclaration
  | variableDeclarator
  | classDeclaration
  | classBody
  | methodDefinition
  | propertyDefinition
  | importDeclaration
  | importSpecifier
  | importDefaultSpecifier
  | importNamespaceSpecifier
  | exportNamedDeclaration
  | exportSpecifier
  | exportDefaultDeclaration
  | exportAllDeclaration
  | identifier
  | privateIdentifier
  | literal
  | templateLiteral
  | templateElement
  | taggedTemplateExpression
  | thisExpression
  | super
  | arrayExpression
  | objectExpression
  | property
  | functionExpression
  | arrowFunctionExpression
  | classExpression
  | unaryExpression
  | updateExpression
  | binaryExpression
  | assignmentExpression
  | logicalExpression
  | memberExpression
  | chainExpression
  | conditionalExpression
  | callExpression
  | newExpression
  | sequenceExpression
  | yieldExpression
  | awaitExpression
  | importExpression
  | metaProperty
  | spreadElement
  | restElement
  | objectPattern
  | arrayPattern
  | assignmentPattern
deriving DecidableEq

namespace NodeKind

/-- Every kind, in the order of the vocabulary. -/
def all : List NodeKind :=
  [.program, .expressionStatement, .blockStatement, .staticBlock, .emptyStatement,
   .debuggerStatement, .withStatement, .returnStatement, .labeledStatement, .breakStatement,
   .continueStatement, .ifStatement, .switchStatement, .switchCase, .throwStatement,
   .tryStatement, .catchClause, .whileStatement, .doWhileStatement, .forStatement,
   .forInStatement, .forOfStatement, .functionDeclaration, .variableDeclaration,
   .variableDeclarator, .classDeclaration, .classBody, .methodDefinition, .propertyDefinition,
   .importDeclaration, .importSpecifier, .importDefaultSpecifier, .importNamespaceSpecifier,
   .exportNamedDeclaration, .exportSpecifier, .exportDefaultDeclaration, .exportAllDeclaration,
   .identifier, .privateIdentifier, .literal, .templateLiteral, .templateElement,
   .taggedTemplateExpression, .thisExpression, .super, .arrayExpression, .objectExpression,
   .property, .functionExpression, .arrowFunctionExpression, .classExpression, .unaryExpression,
   .updateExpression, .binaryExpression, .assignmentExpression, .logicalExpression,
   .memberExpression, .chainExpression, .conditionalExpression, .callExpression, .newExpression,
   .sequenceExpression, .yieldExpression, .awaitExpression, .importExpression, .metaProperty,
   .spreadElement, .restElement, .objectPattern, .arrayPattern, .assignmentPattern]

/-- The place of a kind in the vocabulary, counted from zero. -/
def index (kind : NodeKind) : Nat := kind.ctorIdx

def name : NodeKind → String
  | .program => "Program"
  | .expressionStatement => "ExpressionStatement"
  | .blockStatement => "BlockStatement"
  | .staticBlock => "StaticBlock"
  | .emptyStatement => "EmptyStatement"
  | .debuggerStatement => "DebuggerStatement"
  | .withStatement => "WithStatement"
  | .returnStatement => "ReturnStatement"
  | .labeledStatement => "LabeledStatement"
  | .breakStatement => "BreakStatement"
  | .continueStatement => "ContinueStatement"
  | .ifStatement => "IfStatement"
  | .switchStatement => "SwitchStatement"
  | .switchCase => "SwitchCase"
  | .throwStatement => "ThrowStatement"
  | .tryStatement => "TryStatement"
  | .catchClause => "CatchClause"
  | .whileStatement => "WhileStatement"
  | .doWhileStatement => "DoWhileStatement"
  | .forStatement => "ForStatement"
  | .forInStatement => "ForInStatement"
  | .forOfStatement => "ForOfStatement"
  | .functionDeclaration => "FunctionDeclaration"
  | .variableDeclaration => "VariableDeclaration"
  | .variableDeclarator => "VariableDeclarator"
  | .classDeclaration => "ClassDeclaration"
  | .classBody => "ClassBody"
  | .methodDefinition => "MethodDefinition"
  | .propertyDefinition => "PropertyDefinition"
  | .importDeclaration => "ImportDeclaration"
  | .importSpecifier => "ImportSpecifier"
  | .importDefaultSpecifier => "ImportDefaultSpecifier"
  | .importNamespaceSpecifier => "ImportNamespaceSpecifier"
  | .exportNamedDeclaration => "ExportNamedDeclaration"
  | .exportSpecifier => "ExportSpecifier"
  | .exportDefaultDeclaration => "ExportDefaultDeclaration"
  | .exportAllDeclaration => "ExportAllDeclaration"
  | .identifier => "Identifier"
  | .privateIdentifier => "PrivateIdentifier"
  | .literal => "Literal"
  | .templateLiteral => "TemplateLiteral"
  | .templateElement => "TemplateElement"
  | .taggedTemplateExpression => "TaggedTemplateExpression"
  | .thisExpression => "ThisExpression"
  | .super => "Super"
  | .arrayExpression => "ArrayExpression"
  | .objectExpression => "ObjectExpression"
  | .property => "Property"
  | .functionExpression => "FunctionExpression"
  | .arrowFunctionExpression => "ArrowFunctionExpression"
  | .classExpression => "ClassExpression"
  | .unaryExpression => "UnaryExpression"
  | .updateExpression => "UpdateExpression"
  | .binaryExpression => "BinaryExpression"
  | .assignmentExpression => "AssignmentExpression"
  | .logicalExpression => "LogicalExpression"
  | .memberExpression => "MemberExpression"
  | .chainExpression => "ChainExpression"
  | .conditionalExpression => "ConditionalExpression"
  | .callExpression => "CallExpression"
  | .newExpression => "NewExpression"
  | .sequenceExpression => "SequenceExpression"
  | .yieldExpression => "YieldExpression"
  | .awaitExpression => "AwaitExpression"
  | .importExpression => "ImportExpression"
  | .metaProperty => "MetaProperty"
  | .spreadElement => "SpreadElement"
  | .restElement => "RestElement"
  | .objectPattern => "ObjectPattern"
  | .arrayPattern => "ArrayPattern"
  | .assignmentPattern => "AssignmentPattern"

def ofName? (name : String) : Option NodeKind :=
  all.find? fun kind => kind.name == name

def unknownMessage (name : String) : String :=
  "unknown node type `" ++ name ++ "`"

end NodeKind

end AnnotatedSource
