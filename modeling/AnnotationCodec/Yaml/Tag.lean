import AnnotationCodec.Yaml.Timestamp

/-!
Tags name the types of nodes. A plain scalar without a tag gets one from its text: `Tag.ofPlain` follows the
rules of documents, `Tag.ofPlainStrict` the narrower ones of the second version of the format.
-/

namespace AnnotationCodec.Yaml

inductive Tag
  | null
  | bool
  | int
  | float
  | binary
  | timestamp
  | str
  | seq
  | map
  | set
  | omap
  | pairs
  | merge
  | value
  | other (uri : Text)
  deriving DecidableEq, Repr

namespace Tag

/-- The tags of the standard with their names. -/
def standard : List (Text × Tag) :=
  [(text "null", .null), (text "bool", .bool), (text "int", .int), (text "float", .float),
    (text "binary", .binary), (text "timestamp", .timestamp), (text "str", .str), (text "seq", .seq),
    (text "map", .map), (text "set", .set), (text "omap", .omap), (text "pairs", .pairs),
    (text "merge", .merge), (text "value", .value)]

/-- What standard tags start with. -/
def standardStart : Text :=
  text "tag:yaml.org,2002:"

def ofUri (uri : Text) : Tag :=
  if standardStart.isPrefixOf uri then
    match standard.find? fun e => e.1 = uri.drop standardStart.length with
    | some e => e.2
    | none => .other uri
  else .other uri

/-- The tag as it is written in front of a node. -/
def shorthand (tag : Tag) : Text :=
  match standard.find? fun e => e.2 = tag with
  | some e => text "!!" ++ e.1
  | none =>
    match tag with
    | .other uri => uri
    | _ => []

end Tag

/-! Texts that stand for numbers -/

def isOneOf (words : List String) (t : Text) : Bool :=
  words.any fun w => t = text w

/-- The text without a sign in front. -/
def dropSign : Text → Text
  | [] => []
  | c :: r => if c = '+' || c = '-' then r else c :: r

def isDigitOrLine (c : CodePoint) : Bool :=
  c.isDigit || c = '_'

/-- A digit, and then digits and underscores. -/
def isDigitRun : Text → Bool
  | [] => false
  | c :: r => c.isDigit && r.all isDigitOrLine

/-- An optional exponent of at least one digit. `bare` allows to leave out its sign. -/
def isExponent (bare : Bool) : Text → Bool
  | [] => true
  | e :: r =>
    (e = 'e' || e = 'E') &&
      match r with
      | [] => false
      | s :: ds =>
        if s = '+' || s = '-' then !ds.isEmpty && ds.all CodePoint.isDigit
        else bare && (s :: ds).all CodePoint.isDigit

/-- A number up to 59 in one or two digits. -/
def isSixtieth : Text → Bool
  | [a] => a.isDigit
  | [a, b] => a.isDigit && b.isDigit && a.val ≤ 0x35
  | _ => false

/-- A point with digits and underscores after it. -/
def isPointRun : Text → Bool
  | [] => false
  | c :: r => c = '.' && r.all isDigitOrLine

/-- Digits, a point, perhaps more digits, perhaps an exponent. -/
def isFixedFloat (bare : Bool) (t : Text) : Bool :=
  let (whole, rest) := t.span isDigitOrLine
  isDigitRun whole &&
    match rest with
    | [] => false
    | p :: r => p = '.' && isExponent bare (r.dropWhile isDigitOrLine)

/-- A point, digits, perhaps an exponent. -/
def isPointFloat : Text → Bool
  | [] => false
  | p :: r =>
    let (ds, rest) := r.span isDigitOrLine
    p = '.' && isDigitRun ds && isExponent false rest

def isNonFinite (t : Text) : Bool :=
  isOneOf [".inf", ".Inf", ".INF"] (dropSign t) || isOneOf [".nan", ".NaN", ".NAN"] t

/-- Parts to base sixty: a run of digits and then at least one part below sixty. -/
def isSexagesimal : List Text → Bool
  | first :: second :: rest => isDigitRun first && (second :: rest).all isSixtieth
  | _ => false

/-- The last part to base sixty has a point. -/
def isSexagesimalFloat (parts : List Text) : Bool :=
  match parts.getLast? with
  | none => false
  | some last =>
    let (sixtieth, rest) := last.span CodePoint.isDigit
    isPointRun rest && isSexagesimal (parts.dropLast ++ [sixtieth])

def isFloat (t : Text) : Bool :=
  isFixedFloat false (dropSign t) || isPointFloat t || isNonFinite t ||
    isSexagesimalFloat (Text.splitAt ':' (dropSign t))

/-- Digits after a spelled-out base. -/
def isBased (letter : CodePoint) (isDigit : CodePoint → Bool) : Text → Bool
  | z :: l :: d :: r => z = '0' && l = letter && (d :: r).all fun c => isDigit c || c = '_'
  | _ => false

def isBinaryDigit (c : CodePoint) : Bool :=
  c = '0' || c = '1'

def isOctalDigit (c : CodePoint) : Bool :=
  0x30 ≤ c.val && c.val ≤ 0x37

def isHexDigit (c : CodePoint) : Bool :=
  c.hexValue?.isSome

def isInt (t : Text) : Bool :=
  let t := dropSign t
  isBased 'b' isBinaryDigit t || isBased 'x' isHexDigit t ||
    match t with
    | [] => false
    | c :: r =>
      if c = '0' then r.all fun d => isOctalDigit d || d = '_'
      else isDigitRun t || isSexagesimal (Text.splitAt ':' t)

namespace Tag

def nullWords : List String :=
  ["", "~", "null", "Null", "NULL"]

def boolWords : List String :=
  ["yes", "Yes", "YES", "no", "No", "NO", "true", "True", "TRUE", "false", "False", "FALSE",
    "on", "On", "ON", "off", "Off", "OFF"]

/-- The tag of a plain scalar. -/
def ofPlain (t : Text) : Tag :=
  if isOneOf boolWords t then .bool
  else if isFloat t then .float
  else if isInt t then .int
  else if t = text "<<" then .merge
  else if isOneOf nullWords t then .null
  else if Timestamp.isImplicit t then .timestamp
  else if t = text "=" then .value
  else .str

def strictBoolWords : List String :=
  ["true", "True", "TRUE", "false", "False", "FALSE"]

/-- Digits and an exponent, without a point. -/
def isExponentFloat (t : Text) : Bool :=
  let (whole, rest) := t.span isDigitOrLine
  isDigitRun whole && !rest.isEmpty && isExponent true rest

/-- A point, then digits and underscores, perhaps an exponent. -/
def isBarePointFloat : Text → Bool
  | [] => false
  | p :: r =>
    let (ds, rest) := r.span isDigitOrLine
    p = '.' && !ds.isEmpty && isExponent false rest

def isStrictFloat (t : Text) : Bool :=
  isFixedFloat true (dropSign t) || isExponentFloat (dropSign t) || isBarePointFloat (dropSign t) || isNonFinite t

/-- An integer starts with a sign or a digit, and may go on with underscores alone. -/
def isStrictInt (t : Text) : Bool :=
  let unsigned := dropSign t
  isBased 'b' isBinaryDigit unsigned || isBased 'x' isHexDigit unsigned || isBased 'o' isOctalDigit unsigned ||
    (t.head? ≠ some ('_' : CodePoint) && !unsigned.isEmpty && unsigned.all isDigitOrLine)

/-- The tag of a plain scalar, where fewer words are truth values and numbers have fewer forms. -/
def ofPlainStrict (t : Text) : Tag :=
  if isOneOf strictBoolWords t then .bool
  else if isStrictFloat t then .float
  else if isStrictInt t then .int
  else if t = text "<<" then .merge
  else if isOneOf nullWords t then .null
  else if Timestamp.isImplicit t then .timestamp
  else if t = text "=" then .value
  else .str

end Tag

end AnnotationCodec.Yaml
