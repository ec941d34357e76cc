import Liveness.Decimal.Positional

/-! What a syntax node is.

A node's kind says which construct it stands for; everything else about it is in its
children, laid out by a fixed convention per kind. Literals and names carry their own
text, operators are kinds with the operator inside. `Kind.label` is how a kind is shown
in graphs, reports and messages. -/
namespace Liveness

inductive AssignOp where
  | assign | add | sub | mul | div | mod | bitOr | bitAnd | bitXor | lsh | rsh | ursh
deriving DecidableEq, Repr

inductive BinaryOp where
  | add | sub | mul | div | mod
  | eq | ne | strictEq | strictNe | lt | le | gt | ge
  | bitOr | bitAnd | bitXor | within | instanceOf
deriving DecidableEq, Repr

inductive UnaryOp where
  | not | neg | pos | bitNot | typeOf | void | inc | dec
deriving DecidableEq, Repr

inductive Kind where
  | root
  | script
  | block
  /-- Children: the name (empty when anonymous), the parameter list, the body. -/
  | function
  | paramList
  /-- Children of the three declarations: one name per binding, whose own child, if any,
  is the initial value. -/
  | varDecl
  | letDecl
  | constDecl
  /-- Children: condition, then-branch, optional else-branch. -/
  | ifStmt
  /-- Children: condition, body. -/
  | whileLoop
  /-- Children: body, condition. -/
  | doLoop
  /-- Children: start, condition, increment, body; a part left out is `empty`. -/
  | forLoop
  /-- Children of the two iterations: target, iterated value, body. -/
  | forIn
  | forOf
  /-- Children: guarded block, catch clause or `empty`, optional final block. -/
  | tryStmt
  /-- Children: the bound name, the block. -/
  | catchClause
  | returnStmt
  | throwStmt
  | exprStmt
  | empty
  | and
  | or
  /-- Children: condition, value if true, value if false. -/
  | conditional
  /-- Children: target, value. -/
  | assign (op : AssignOp)
  | name (text : String)
  | call
  | construct
  | property (text : String)
  | element
  | binary (op : BinaryOp)
  | unary (op : UnaryOp)
  /-- A double, by its bits. -/
  | number (bits : UInt64)
  | string (text : String)
  | trueLit
  | falseLit
  | nullLit
  | this
  | arrayLit
  | objectLit
  | key (text : String)
  | arrayPattern
  | objectPattern
deriving DecidableEq, Repr

def AssignOp.label : AssignOp → String
  | .assign => "ASSIGN"
  | .add => "ASSIGN_ADD"
  | .sub => "ASSIGN_SUB"
  | .mul => "ASSIGN_MUL"
  | .div => "ASSIGN_DIV"
  | .mod => "ASSIGN_MOD"
  | .bitOr => "ASSIGN_BITOR"
  | .bitAnd => "ASSIGN_BITAND"
  | .bitXor => "ASSIGN_BITXOR"
  | .lsh => "ASSIGN_LSH"
  | .rsh => "ASSIGN_RSH"
  | .ursh => "ASSIGN_URSH"

def BinaryOp.label : BinaryOp → String
  | .add => "ADD"
  | .sub => "SUB"
  | .mul => "MUL"
  | .div => "DIV"
  | .mod => "MOD"
  | .eq => "EQ"
  | .ne => "NE"
  | .strictEq => "STRICTEQ"
  | .strictNe => "STRICTNE"
  | .lt => "LT"
  | .le => "LE"
  | .gt => "GT"
  | .ge => "GE"
  | .bitOr => "BITOR"
  | .bitAnd => "BITAND"
  | .bitXor => "BITXOR"
  | .within => "IN"
  | .instanceOf => "INSTANCEOF"

def UnaryOp.label : UnaryOp → String
  | .not => "NOT"
  | .neg => "NEG"
  | .pos => "POS"
  | .bitNot => "BITNOT"
  | .typeOf => "TYPEOF"
  | .void => "VOID"
  | .inc => "INC"
  | .dec => "DEC"

namespace Kind

/-- How the kind is shown. -/
def label : Kind → String
  | root => "ROOT"
  | script => "SCRIPT"
  | block => "BLOCK"
  | function => "FUNCTION"
  | paramList => "PARAM_LIST"
  | varDecl => "VAR"
  | letDecl => "LET"
  | constDecl => "CONST"
  | ifStmt => "IF"
  | whileLoop => "WHILE"
  | doLoop => "DO"
  | forLoop => "FOR"
  | forIn => "FOR_IN"
  | forOf => "FOR_OF"
  | tryStmt => "TRY"
  | catchClause => "CATCH"
  | returnStmt => "RETURN"
  | throwStmt => "THROW"
  | exprStmt => "EXPR_RESULT"
  | empty => "EMPTY"
  | and => "AND"
  | or => "OR"
  | conditional => "HOOK"
  | assign op => op.label
  | name text => "NAME " ++ text
  | call => "CALL"
  | construct => "NEW"
  | property text => "GETPROP " ++ text
  | element => "GETELEM"
  | binary op => op.label
  | unary op => op.label
  | number bits => "NUMBER " ++ Decimal.text bits
  | string text => "STRING " ++ text
  | trueLit => "TRUE"
  | falseLit => "FALSE"
  | nullLit => "NULL"
  | this => "THIS"
  | arrayLit => "ARRAYLIT"
  | objectLit => "OBJECTLIT"
  | key text => "STRING_KEY " ++ text
  | arrayPattern => "ARRAY_PATTERN"
  | objectPattern => "OBJECT_PATTERN"

def isFunction : Kind → Bool
  | function => true
  | _ => false

def isAssignment : Kind → Bool
  | assign _ => true
  | _ => false

/-- A `var`, `let` or `const` declaration. -/
def isDeclaration : Kind → Bool
  | varDecl | letDecl | constDecl => true
  | _ => false

/-- The identifier of a name. -/
def name? : Kind → Option String
  | name text => some text
  | _ => none

def isName (k : Kind) : Bool := k.name?.isSome

end Kind
end Liveness
