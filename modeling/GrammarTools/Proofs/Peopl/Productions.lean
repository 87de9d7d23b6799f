import GrammarTools.Peopl.Token
import GrammarTools.Proofs.Derivation

/-!
# The productions of PeoPl

The grammar of PeoPl over tokens. Binary operators are not ranked, and a comma
behind a branch may lead to a default as well as out of the branches.

What may stand first in a capture is left open in `productionsWith`. Besides a
simple expression it may be a type, and a type may have operators and operands
behind it (`capture`). A less-than sign right behind the name of a type opens
its arguments, though, so only a type with arguments may be compared by it.
Without this restriction (`looseCapture`) the grammar derives more.
-/

namespace GrammarTools.Peopl

/-- The names of the rules. -/
inductive Nonterminal where
  | statement
  | namespaceState
  | implementationStatement
  | constantsStatement
  | typeDefinition
  | enumTypeDefinition
  | simpleTypeDefinition
  | paramList
  | paramDefinition
  | typeIdentifier
  | nominalType
  | flatNominalType
  | typeArguments
  | tupleStructuralType
  | lambdaStructuralType
  | functionDefinition
  | expression
  | simpleExpression
  | boolLiteral
  | tupleLiteral
  | unaryExpression
  | binaryExpression
  | parenthisizedExpression
  | callExpression
  | callParamList
  | callParam
  | pipedExpression
  | branchedExpression
  | branchExpression
  | captureGroup
  | loopedExpression
  | lambdaExpression
  | accessExpression

open Pattern

/-- The name of an argument, or underscores. -/
def anyArgumentName : Pattern Nonterminal Token := oneOf .argumentName [.underscore]

/-- The binary operators other than the less-than sign. -/
def operatorButLess : Pattern Nonterminal Token :=
  oneOf .star [.slash, .percent, .plus, .minus, .equals, .notEquals, .greater, .greaterEquals,
    .lessEquals, .andKeyword, .orKeyword]

/-- The binary operators. -/
def binaryOperator : Pattern Nonterminal Token := operatorButLess ||| token .less

/-- A type whose last name has arguments. -/
def appliedType : Pattern Nonterminal Token :=
  many (rule .flatNominalType ++ token .colonColon) ++
    (token .typeName ++ rule .typeArguments)

/-- A type and the operator behind it. -/
def comparedType : Pattern Nonterminal Token :=
  rule .nominalType ++ operatorButLess ||| appliedType ++ token .less

/-- What stands first in a capture. -/
def capture : Pattern Nonterminal Token :=
  anyOf (rule .simpleExpression) [rule .nominalType, comparedType ++ rule .simpleExpression]

/-- What would stand first in a capture if any type could be compared. -/
def looseCapture : Pattern Nonterminal Token :=
  rule .simpleExpression |||
    rule .nominalType ++ opt (binaryOperator ++ rule .simpleExpression)

/-- What each rule derives, given what stands first in a capture. -/
def productionsWith (first : Pattern Nonterminal Token) : Productions Nonterminal Token
  | .statement =>
    anyOf (rule .namespaceState) [rule .implementationStatement, rule .constantsStatement,
      rule .typeDefinition, rule .functionDefinition]
  | .namespaceState =>
    token .namespaceKeyword ++ token .openBracket ++ opt (rule .nominalType) ++
      many (token .comma ++ rule .nominalType) ++ token .closeBracket
  | .implementationStatement => rule .nominalType ++ token .equals ++ rule .nominalType
  | .constantsStatement =>
    opt (rule .nominalType ++ token .dot) ++ anyArgumentName ++ token .equals ++
      rule .simpleExpression
  | .typeDefinition =>
    token .typeKeyword ++ (rule .enumTypeDefinition ||| rule .simpleTypeDefinition)
  | .enumTypeDefinition => rule .nominalType ++ plus (rule .simpleTypeDefinition)
  | .simpleTypeDefinition => rule .nominalType ++ opt (rule .paramList)
  | .paramList => plus (rule .paramDefinition)
  | .paramDefinition =>
    anyArgumentName ++ token .colon ++ rule .typeIdentifier ++
      opt (token .openParen ++ rule .simpleExpression ++ token .closeParen) ++
      opt (token .comma)
  | .typeIdentifier =>
    anyOf (token .nothingKeyword) [token .neverKeyword, rule .nominalType,
      rule .lambdaStructuralType, rule .tupleStructuralType]
  | .nominalType => separated (rule .flatNominalType) .colonColon
  | .flatNominalType => token .typeName ++ opt (rule .typeArguments)
  | .typeArguments =>
    token .less ++ separated (rule .typeIdentifier) .comma ++ token .greater
  | .tupleStructuralType =>
    token .openBracket ++ separated (rule .typeIdentifier) .comma ++ token .closeBracket
  | .lambdaStructuralType =>
    token .openBrace ++ opt (separated (rule .typeIdentifier) .comma) ++ token .closeBrace ++
      token .arrow ++ rule .typeIdentifier
  | .functionDefinition =>
    token .funcKeyword ++
      opt (token .openParen ++ rule .typeIdentifier ++ token .closeParen) ++
      opt (rule .nominalType ++ token .dot) ++ anyArgumentName ++
      (token .openParen ++ opt (rule .paramList) ++ token .closeParen) ++ token .fatArrow ++
      rule .typeIdentifier ++ rule .expression
  | .expression =>
    anyOf (rule .simpleExpression) [rule .branchedExpression, rule .pipedExpression]
  | .simpleExpression =>
    anyOf (token .nothingKeyword) [token .neverKeyword, token .number, token .string,
      rule .boolLiteral, rule .unaryExpression, rule .binaryExpression, rule .tupleLiteral,
      rule .parenthisizedExpression, rule .lambdaExpression, anyArgumentName,
      rule .callExpression, rule .accessExpression]
  | .boolLiteral => oneOf .trueKeyword [.falseKeyword]
  | .tupleLiteral =>
    token .openBracket ++ separated (rule .expression) .comma ++ token .closeBracket
  | .unaryExpression => oneOf .plus [.minus, .notKeyword] ++ rule .simpleExpression
  | .binaryExpression => rule .simpleExpression ++ binaryOperator ++ rule .simpleExpression
  | .parenthisizedExpression => token .openParen ++ rule .expression ++ token .closeParen
  | .callExpression =>
    (rule .simpleExpression ||| rule .nominalType) ++ token .openParen ++
      opt (rule .callParamList) ++ token .closeParen
  | .callParamList => plus (rule .callParam)
  | .callParam =>
    anyArgumentName ++ token .colon ++ rule .simpleExpression ++ opt (token .comma)
  | .pipedExpression => rule .expression ++ oneOf .question [.semicolon] ++ rule .expression
  | .branchedExpression =>
    separated (rule .branchExpression) .comma ++ opt (token .comma ++ rule .simpleExpression)
  | .branchExpression =>
    token .pipe ++ rule .captureGroup ++ token .pipe ++
      (rule .simpleExpression ||| rule .loopedExpression)
  | .captureGroup => first ++ many (token .comma ++ rule .simpleExpression)
  | .loopedExpression => rule .parenthisizedExpression ++ token .caret
  | .lambdaExpression => token .openBrace ++ rule .expression ++ token .closeBrace
  | .accessExpression =>
    (rule .simpleExpression ||| rule .nominalType) ++ token .dot ++ anyArgumentName

/-- What each rule derives. -/
def productions : Productions Nonterminal Token := productionsWith capture

/-- A source file is a row of statements, each with two dots behind it. -/
def sourceFile : Pattern Nonterminal Token := many (rule .statement ++ token .dotDot)

theorem productions_isSolid (n : Nonterminal) : (productions n).isSolid := by
  cases n <;> rfl

end GrammarTools.Peopl
