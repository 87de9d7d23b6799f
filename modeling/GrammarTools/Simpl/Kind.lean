import GrammarTools.Language

/-!
# Node kinds and fields of Simpl

The numbers of kinds and fields are their places in the tables below.
-/

namespace GrammarTools.Simpl

/-- The kinds of nodes. -/
inductive Kind where
  | error
  | sourceFile
  | comment
  | typeDeclaration
  | contractDeclaration
  | functionDeclaration
  | paramList
  | paramDeclaration
  | typeIdentifier
  | fieldIdentifier
  | inlineFunctionDeclaration
  | loopedExpression
  | parenthisedExpression
  | pipeExpression
  | subpipeBranchExpression
  | subpipeExpression
  | callExpression
  | paramListCall
  | paramDefinition
  | unaryExpression
  | binaryExpression
  | trueLiteral
  | falseLiteral
  | intLiteral
  | floatLiteral
  | stringLiteral
  | arrayLiteral
  | multiplicativeOperator
  | additiveOperator
  | comparativeOperator
  | andOperator
  | orOperator
  | typeKeyword
  | contractKeyword
  | funcKeyword
  | notKeyword
  | dot
  | colon
  | comma
  | semicolon
  | pipe
  | caret
  | openParen
  | closeParen
  | openBrace
  | closeBrace
  | openBracket
  | closeBracket
  | star
  | slash
  | percent
  | plus
  | minus
  | equals
  | notEquals
  | greater
  | greaterEquals
  | less
  | lessEquals
deriving DecidableEq, Repr, Inhabited

namespace Kind

/-- The name that a kind has in trees. -/
def name : Kind → String
  | error => errorKindName
  | sourceFile => "source_file"
  | comment => "comment"
  | typeDeclaration => "type_declaration"
  | contractDeclaration => "contract_declaration"
  | functionDeclaration => "function_declaration"
  | paramList => "param_list"
  | paramDeclaration => "param_declaration"
  | typeIdentifier => "type_identifier"
  | fieldIdentifier => "field_identifier"
  | inlineFunctionDeclaration => "inline_function_declaration"
  | loopedExpression => "looped_expression"
  | parenthisedExpression => "parenthised_expression"
  | pipeExpression => "pipe_expression"
  | subpipeBranchExpression => "subpipe_branch_expresssion"
  | subpipeExpression => "subpipe_expression"
  | callExpression => "call_expression"
  | paramListCall => "param_list_call"
  | paramDefinition => "param_definition"
  | unaryExpression => "unary_expression"
  | binaryExpression => "binary_expression"
  | trueLiteral => "true"
  | falseLiteral => "false"
  | intLiteral => "int_literal"
  | floatLiteral => "float_literal"
  | stringLiteral => "string_literal"
  | arrayLiteral => "array_literal"
  | multiplicativeOperator => "multiplicative_operator"
  | additiveOperator => "additive_operator"
  | comparativeOperator => "comparative_operator"
  | andOperator => "and_operator"
  | orOperator => "or_operator"
  | typeKeyword => "type"
  | contractKeyword => "contract"
  | funcKeyword => "func"
  | notKeyword => "not"
  | dot => "."
  | colon => ":"
  | comma => ","
  | semicolon => ";"
  | pipe => "|"
  | caret => "^"
  | openParen => "("
  | closeParen => ")"
  | openBrace => "\x7b"
  | closeBrace => "\x7d"
  | openBracket => "["
  | closeBracket => "]"
  | star => "*"
  | slash => "/"
  | percent => "%"
  | plus => "+"
  | minus => "-"
  | equals => "="
  | notEquals => "!="
  | greater => ">"
  | greaterEquals => ">="
  | less => "<"
  | lessEquals => "<="

/-- All kinds, in the order of the table. -/
def all : List Kind := [
  .error, .sourceFile, .comment, .typeDeclaration, .contractDeclaration, .functionDeclaration,
  .paramList, .paramDeclaration, .typeIdentifier, .fieldIdentifier, .inlineFunctionDeclaration,
  .loopedExpression, .parenthisedExpression, .pipeExpression, .subpipeBranchExpression,
  .subpipeExpression, .callExpression, .paramListCall, .paramDefinition, .unaryExpression,
  .binaryExpression, .trueLiteral, .falseLiteral, .intLiteral, .floatLiteral, .stringLiteral,
  .arrayLiteral, .multiplicativeOperator, .additiveOperator, .comparativeOperator,
  .andOperator, .orOperator, .typeKeyword, .contractKeyword, .funcKeyword, .notKeyword, .dot,
  .colon, .comma, .semicolon, .pipe, .caret, .openParen, .closeParen, .openBrace, .closeBrace,
  .openBracket, .closeBracket, .star, .slash, .percent, .plus, .minus, .equals, .notEquals,
  .greater, .greaterEquals, .less, .lessEquals]

/-- Whether nodes of a kind follow a rule. The kinds of literal tokens do not, and come
    last. -/
def isNamed (kind : Kind) : Bool := kind.ctorIdx < typeKeyword.ctorIdx

/-- The number of a kind. -/
def id (kind : Kind) : KindId := ⟨kind.ctorIdx.toUInt16⟩

instance : Coe Kind KindId := ⟨id⟩

/-- The table of kinds. -/
def table : List NodeKind := all.map fun kind => ⟨kind.name, kind.isNamed⟩

end Kind

/-- The parts that a node can fill in the node above. -/
inductive Field where
  | name
  | params
  | onType
  | result
  | body
  | type
  | left
  | right
  | captureGroup
  | subpipe
  | callee
  | value
  | operator
  | operand
deriving DecidableEq, Repr, Inhabited

namespace Field

/-- The name of a field. -/
def fieldName : Field → String
  | name => "name"
  | params => "params"
  | onType => "on_type"
  | result => "return"
  | body => "body"
  | type => "type"
  | left => "left"
  | right => "right"
  | captureGroup => "capture_group"
  | subpipe => "subpipe"
  | callee => "callee"
  | value => "value"
  | operator => "operator"
  | operand => "operand"

/-- All fields, in the order of the table. -/
def all : List Field := [
  .name, .params, .onType, .result, .body, .type, .left, .right, .captureGroup, .subpipe,
  .callee, .value, .operator, .operand]

/-- The number of a field. -/
def id (field : Field) : FieldId := ⟨field.ctorIdx.toUInt16⟩

instance : Coe Field FieldId := ⟨id⟩

/-- The table of fields. -/
def table : List String := all.map fieldName

end Field

end GrammarTools.Simpl
