import Reflection.Header.Skipping

namespace Reflection.Header

-- The text of a documentation comment without its mark and one space after it.
def stripMark (mark line : List Char) : List Char :=
  let body := (Text.after? mark line).getD line
  Text.trimEnd ((Text.after? [' '] body).getD body)

-- `///<` belongs to the declaration before it.
def isTrailingDoc (token : Token) : Bool :=
  token.kind = .docComment && "///<".toList.isPrefixOf token.text

def isLeadingDoc (token : Token) : Bool := token.kind = .docComment && !isTrailingDoc token

-- Consecutive `///` lines make one annotation.
def docBlock (first : Token) (more : List Token) : AnnotationBlock :=
  let lines := (first :: more).map fun token => String.ofList (stripMark "///".toList token.text)
  ⟨.docComment, "\n".intercalate lines,
    more.foldl (fun span token => span.merge token.span) first.span⟩

-- The annotation of a `///<` comment that comes next, and what follows it.
def trailingDoc (tokens : List Token) : Option AnnotationBlock × List Token :=
  match tokens with
  | token :: rest =>
    if isTrailingDoc token then
      (some ⟨.docComment, String.ofList (stripMark "///<".toList token.text), token.span⟩, rest)
    else (none, tokens)
  | [] => (none, [])

-- Documentation comments and attribute blocks in front of a declaration. A trailing comment has
-- no owner here and is dropped.
def leadingAnnotations (ending : Token) : List Token → Read (List AnnotationBlock)
  | [] => .done [] []
  | token :: rest =>
    if isTrailingDoc token then leadingAnnotations ending rest
    else if isLeadingDoc token then
      have := (rest.dropWhile_suffix isLeadingDoc).length_le
      (leadingAnnotations ending (rest.dropWhile isLeadingDoc)).map
        (docBlock token (rest.takeWhile isLeadingDoc) :: ·)
    else if token.kind = .attrOpen then
      match h : attributeBlock ending token [] rest with
      | .done block after =>
        have := attributeBlock_length h
        (leadingAnnotations ending after).map (block :: ·)
      | .failed error after => .failed error after
    else .done [] (token :: rest)
termination_by tokens => tokens.length
decreasing_by all_goals simp only [List.length_cons]; omega

theorem trailingDoc_suffix (tokens : List Token) : (trailingDoc tokens).2 <:+ tokens := by
  unfold trailingDoc
  grind [List.suffix_cons, List.suffix_refl]

theorem leadingAnnotations_suffix (ending : Token) (tokens : List Token) :
    (leadingAnnotations ending tokens).rest <:+ tokens := by
  fun_induction leadingAnnotations with
    grind [attributeBlock_suffix, Read.suffix_cons, Read.suffix_of_done, Read.suffix_of_failed,
      List.suffix_cons, List.IsSuffix.trans, Read.rest_done, Read.rest_failed, List.suffix_refl,
      Read.rest_map, List.dropWhile_suffix]

-- Attribute blocks and `alignas` specifiers; the attributes are kept.
def specifiers (ending : Token) : List Token → Read (List AnnotationBlock)
  | [] => .done [] []
  | token :: rest =>
    match token.kind with
    | .attrOpen =>
      match h : attributeBlock ending token [] rest with
      | .done block after =>
        have := attributeBlock_length h
        (specifiers ending after).map (block :: ·)
      | .failed error after => .failed error after
    | .alignasKw =>
      match h : skipParens ending rest with
      | .done _ after =>
        have := skipParens_length h
        specifiers ending after
      | .failed error after => .failed error after
    | _ => .done [] (token :: rest)
termination_by tokens => tokens.length
decreasing_by all_goals simp only [List.length_cons]; omega

theorem specifiers_suffix (ending : Token) (tokens : List Token) :
    (specifiers ending tokens).rest <:+ tokens := by
  fun_induction specifiers with
    grind [attributeBlock_suffix, skipParens_suffix, Read.suffix_cons, Read.suffix_of_done,
      Read.suffix_of_failed, List.suffix_cons, List.IsSuffix.trans, Read.rest_done,
      Read.rest_failed, List.suffix_refl, Read.rest_map]

end Reflection.Header
