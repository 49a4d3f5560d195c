import Bx.Word

namespace Bx.Source

inductive Op
  | plus | minus | times | div | modulus
  | bitand | bitor | bitxor | bitshl | bitshr | bitcompl | uminus
  | less | lesseq | greater | greatereq | booleq | boolneq
  | boolnot | booland | boolor
  deriving DecidableEq

namespace Op

def all : List Op := [.plus, .minus, .times, .div, .modulus, .bitand, .bitor, .bitxor, .bitshl, .bitshr, .bitcompl,
  .uminus, .less, .lesseq, .greater, .greatereq, .booleq, .boolneq, .boolnot, .booland, .boolor]

def name : Op → String
  | .plus => "PLUS" | .minus => "MINUS" | .times => "TIMES" | .div => "DIV" | .modulus => "MODULUS"
  | .bitand => "BITAND" | .bitor => "BITOR" | .bitxor => "BITXOR" | .bitshl => "BITSHL" | .bitshr => "BITSHR"
  | .bitcompl => "BITCOMPL" | .uminus => "UMINUS"
  | .less => "LESS" | .lesseq => "LESSEQ" | .greater => "GREATER" | .greatereq => "GREATEREQ"
  | .booleq => "BOOLEQ" | .boolneq => "BOOLNEQ"
  | .boolnot => "BOOLNOT" | .booland => "BOOLAND" | .boolor => "BOOLOR"

def ofName? (s : String) : Option Op := all.find? (·.name == s)

def opcode? : Op → Option String
  | .plus => some Word.Binop.add.name
  | .minus => some Word.Binop.sub.name
  | .times => some Word.Binop.mul.name
  | .div => some Word.Binop.div.name
  | .modulus => some Word.Binop.mod.name
  | .bitand => some Word.Binop.and.name
  | .bitor => some Word.Binop.or.name
  | .bitxor => some Word.Binop.xor.name
  | .bitshl => some Word.Binop.shl.name
  | .bitshr => some Word.Binop.shr.name
  | .bitcompl => some Word.Unop.not.name
  | .uminus => some Word.Unop.neg.name
  | _ => none

def isBoolean : Op → Bool
  | .less | .lesseq | .greater | .greatereq | .booleq | .boolneq | .boolnot | .booland | .boolor => true
  | _ => false

def wantsBoolean : Op → Bool
  | .boolnot | .booland | .boolor => true
  | _ => false

end Op

end Bx.Source
