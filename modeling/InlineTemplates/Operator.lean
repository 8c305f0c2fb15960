import InlineTemplates.Token

/-!
# Operators

The operators of expressions with their spelling and, for binary ones, how tightly they bind.
-/

namespace InlineTemplates

/-- An operator between two operands. -/
inductive BinaryOp where
  | nullish | or | and
  | equal | notEqual | strictEqual | strictNotEqual
  | less | greater | lessEqual | greaterEqual | instanceof | isIn
  | plus | minus | times | divide | remainder
deriving DecidableEq, Inhabited

/-- An operator in front of its operand. -/
inductive UnaryOp where
  | not | minus | plus | typeof | void | delete | await
deriving DecidableEq, Inhabited

/-- An operator that changes its operand by one. -/
inductive UpdateOp where
  | increment | decrement
deriving DecidableEq, Inhabited

/-- An operator that assigns to its left operand. -/
inductive AssignOp where
  | set | plus | minus | times | divide | remainder | or | and | nullish
deriving DecidableEq, Inhabited

namespace BinaryOp

def text : BinaryOp → Text
  | nullish => "??"
  | or => "||"
  | and => "&&"
  | equal => "=="
  | notEqual => "!="
  | strictEqual => "==="
  | strictNotEqual => "!=="
  | less => "<"
  | greater => ">"
  | lessEqual => "<="
  | greaterEqual => ">="
  | instanceof => "instanceof"
  | isIn => "in"
  | plus => "+"
  | minus => "-"
  | times => "*"
  | divide => "/"
  | remainder => "%"

/-- How tightly the operator binds. Operators of equal strength group to the left. -/
def precedence : BinaryOp → Nat
  | nullish => 3
  | or => 4
  | and => 5
  | equal | notEqual | strictEqual | strictNotEqual => 6
  | less | greater | lessEqual | greaterEqual | instanceof | isIn => 7
  | plus | minus => 8
  | times | divide | remainder => 9

/-- The operator that a token is between two operands. -/
def ofKind? : Token.Kind → Option BinaryOp
  | .nullish => some nullish
  | .or => some or
  | .and => some and
  | .equal => some equal
  | .notEqual => some notEqual
  | .strictEqual => some strictEqual
  | .strictNotEqual => some strictNotEqual
  | .less => some less
  | .greater => some greater
  | .lessEqual => some lessEqual
  | .greaterEqual => some greaterEqual
  | .instanceofWord => some instanceof
  | .inWord => some isIn
  | .plus => some plus
  | .minus => some minus
  | .star => some times
  | .slash => some divide
  | .percent => some remainder
  | _ => none

end BinaryOp

namespace UnaryOp

def text : UnaryOp → Text
  | not => "!"
  | minus => "-"
  | plus => "+"
  | typeof => "typeof"
  | void => "void"
  | delete => "delete"
  | await => "await"

/-- Whether the operator is a word, which a blank keeps apart from its operand. -/
def isWord : UnaryOp → Bool
  | not | minus | plus => false
  | typeof | void | delete | await => true

/-- The operator that a token is in front of an operand. -/
def ofKind? : Token.Kind → Option UnaryOp
  | .bang => some not
  | .minus => some minus
  | .plus => some plus
  | .typeofWord => some typeof
  | .voidWord => some void
  | .deleteWord => some delete
  | .awaitWord => some await
  | _ => none

end UnaryOp

namespace UpdateOp

def text : UpdateOp → Text
  | increment => "++"
  | decrement => "--"

def ofKind? : Token.Kind → Option UpdateOp
  | .increment => some increment
  | .decrement => some decrement
  | _ => none

end UpdateOp

namespace AssignOp

def text : AssignOp → Text
  | set => "="
  | plus => "+="
  | minus => "-="
  | times => "*="
  | divide => "/="
  | remainder => "%="
  | or => "||="
  | and => "&&="
  | nullish => "??="

def ofKind? : Token.Kind → Option AssignOp
  | .assign => some set
  | .plusAssign => some plus
  | .minusAssign => some minus
  | .starAssign => some times
  | .slashAssign => some divide
  | .percentAssign => some remainder
  | .orAssign => some or
  | .andAssign => some and
  | .nullishAssign => some nullish
  | _ => none

end AssignOp

end InlineTemplates
