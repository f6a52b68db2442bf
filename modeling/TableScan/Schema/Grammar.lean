import TableScan.Schema.Basic
import TableScan.Text.Blank
import TableScan.Text.Scan

/-!
# Schema text

The grammar of written schemas, with white space allowed between any two tokens:

* a schema is empty or a list of columns between commas,
* a column is a name, then a colon and a type; without these it holds bytes,
* a type is a primitive keyword (`boolean` for `bool`), `map` with a type in parentheses (a bare
  map holds bytes), or `record` with a schema in parentheses; keywords stand in any ASCII case,
* a name is a letter or underscore, then letters, digits and underscores, all ASCII.

`Schema.parse` reads a text. A text that cannot be read is at fault at one position, the number of
bytes before the rest that was not understood.
-/

namespace TableScan

open Text (Scan trimStart length_trimStart_le)

/-- Where a scanner gave up: why, and at what rest of the text. -/
structure Stuck where
  fault : TextFault
  rest : List Char
  deriving DecidableEq, Repr

/-- The error of a scanner that gave up within `input`. -/
def Stuck.error (stuck : Stuck) (input : List Char) : LoadError :=
  .parse (.text stuck.fault (String.ofList input)
    (Text.utf8Length input - Text.utf8Length stuck.rest))

namespace Grammar

def isNameStart (c : Char) : Bool := c.isAlpha || c == '_'

def isNamePart (c : Char) : Bool := c.isAlphanum || c == '_'

def isName (cs : List Char) : Bool :=
  match cs with
  | [] => false
  | c :: r => isNameStart c && r.all isNamePart

/-- A name, with white space before it. -/
def scanName (cs : List Char) : Except Stuck (Scan cs String) :=
  match h : trimStart cs with
  | [] => .error ⟨.expectedName, []⟩
  | c :: r =>
    if isNameStart c then
      .ok ⟨String.ofList (c :: r.takeWhile isNamePart), r.dropWhile isNamePart,
        Nat.lt_of_le_of_lt (Text.length_dropWhile_le isNamePart r)
          (Text.length_lt_of_trimStart_cons h)⟩
    else .error ⟨.expectedName, c :: r⟩

/-- A given character, with white space before it. -/
def expect (c : Char) (cs : List Char) : Except Stuck (Scan cs Unit) :=
  match h : trimStart cs with
  | [] => .error ⟨.expectedChar c, []⟩
  | d :: r =>
    if d = c then .ok ⟨(), r, Text.length_lt_of_trimStart_cons h⟩
    else .error ⟨.expectedChar c, d :: r⟩

/-- The primitive of a keyword in lower case. -/
def primitiveOfKeyword? (keyword : String) : Option Primitive :=
  if keyword = "boolean" then some .bool else Primitive.all.find? (·.name == keyword)

def lower (name : String) : String := String.ofList (name.toList.map Char.toLower)

mutual

/-- A type. A bare map takes the white space after it. -/
def scanType (cs : List Char) : Except Stuck (Scan cs ColumnType) :=
  match scanName cs with
  | .error e => .error e
  | .ok name =>
    have hn := name.lt
    let keyword := lower name.value
    match primitiveOfKeyword? keyword with
    | some p => .ok (name.map fun _ => .primitive p)
    | none =>
      if keyword = "map" then
        have hs := length_trimStart_le name.rest
        match h : trimStart name.rest with
        | '(' :: r =>
          have hr : r.length < cs.length := by simp [h] at hs; omega
          match scanType r with
          | .error e => .error e
          | .ok value =>
            have hv := value.lt
            match expect ')' value.rest with
            | .error e => .error e
            | .ok close =>
              .ok ⟨.map value.value, close.rest, by have := close.lt; omega⟩
        -- a map without a value type holds bytes
        | r => .ok ⟨.map (.primitive .bytes), r, by simp_all; omega⟩
      else if keyword = "record" then
        match expect '(' name.rest with
        | .error e => .error e
        | .ok opened =>
          have ho := opened.lt
          have hs := length_trimStart_le opened.rest
          match h : trimStart opened.rest with
          | [] => .error ⟨.expectedChar ')', []⟩
          | ')' :: r => .ok ⟨.record [], r, by simp [h] at hs; omega⟩
          | _ =>
            match scanColumns [] opened.rest with
            | .error e => .error e
            | .ok columns =>
              have hc := columns.lt
              match expect ')' columns.rest with
              | .error e => .error e
              | .ok close =>
                .ok ⟨.record columns.value, close.rest, by have := close.lt; omega⟩
      else .error ⟨.unknownType keyword, name.rest⟩
termination_by (cs.length, 0)
decreasing_by
  · apply Prod.Lex.left; omega
  · apply Prod.Lex.left; omega

/-- One or more columns between commas, after the columns `before` of the same schema. White space
behind the last one is taken. -/
def scanColumns (before : List Column) (cs : List Char) :
    Except Stuck (Scan cs (List Column)) :=
  match scanName cs with
  | .error e => .error e
  | .ok name =>
    have hn := name.lt
    have hs := length_trimStart_le name.rest
    let typed : Except Stuck (Scan cs ColumnType) :=
      match h : trimStart name.rest with
      | ':' :: r =>
        match scanType r with
        | .error e => .error e
        | .ok type => .ok (type.lift (by simp [h] at hs; omega))
      -- so does a column without a type
      | r => .ok ⟨.primitive .bytes, r, by simp_all; omega⟩
    match typed with
    | .error e => .error e
    | .ok type =>
      have ht := type.lt
      match Schema.push ⟨before⟩ ⟨name.value, type.value⟩ with
      | .error _ => .error ⟨.repeatedColumn name.value, type.rest⟩
      | .ok schema =>
        have hr := length_trimStart_le type.rest
        match h : trimStart type.rest with
        | ',' :: r =>
          match scanColumns schema.columns r with
          | .error e => .error e
          | .ok columns => .ok (columns.lift (by simp [h] at hr; omega))
        | r => .ok ⟨schema.columns, r, by simp_all; omega⟩
termination_by (cs.length, 1)
decreasing_by
  · simp [h] at hs; apply Prod.Lex.left; omega
  · simp [h] at hr; apply Prod.Lex.left; omega

end

def scanSchema (cs : List Char) : Except Stuck (List Column) :=
  match trimStart cs with
  | [] => .ok []
  | ')' :: r => .error ⟨.trailingInput, ')' :: r⟩
  | _ =>
    match scanColumns [] cs with
    | .error e => .error e
    | .ok columns =>
      match trimStart columns.rest with
      | [] => .ok columns.value
      | r => .error ⟨.trailingInput, r⟩

end Grammar

def Schema.parse (text : String) : LoadResult Schema :=
  match Grammar.scanSchema text.toList with
  | .ok columns => .ok ⟨columns⟩
  | .error stuck => .error (stuck.error text.toList)

end TableScan
