/-
What can be wrong with a text, and where.

A fault is a cause and a mark.  The causes are listed one by one; their wording is a
single function at the end, so that nothing else depends on it.
-/

namespace YamlDelta.Markup

/-- A point of a text: how many characters lie before it, its line from 1 and its column
from 0. -/
structure Mark where
  index : Nat
  line : Nat
  column : Nat
deriving Repr, DecidableEq

/-- The beginning of a text. -/
def Mark.start : Mark := ⟨0, 1, 0⟩

/-- Why a text is refused. -/
inductive Cause where
  -- Indentation and keys
  | staleKey
  | missingKey
  | indentation
  | blockTab
  | nestingTooDeep
  | illegalValue
  | valueTab
  | valueNotAllowed
  | keyNotAllowed
  | missingWhitespace
  | keyTab
  | entryInFlow
  | entryNotAllowed
  | entryTab
  | anchorIndentation
  | unexpectedCharacter (c : Char)
  -- Comments and document markers
  | commentNotSeparated
  | contentAfterDocumentEnd
  -- Anchors
  | emptyAnchor
  -- Directives
  | directiveName
  | directiveNameEnd
  | directiveEnd
  | versionNumber
  | versionPoint
  | versionTooLong
  -- Tags
  | tagMark
  | tagHandleEnd
  | tagGlobal
  | tagDirectiveEnd
  | tagVerbatimEnd
  | tagSuffix
  | tagEnd
  | tagEscape
  | tagLeadingOctet
  | tagTrailingOctet
  | tagCodePoint
  | tagUndeclared
  -- Quoted scalars
  | quotedDocumentMark
  | quotedEnd
  | quotedIndentation
  | quotedTab
  | quotedTrailing
  | escapeUnknown
  | escapeDigits
  | escapeCodePoint
  -- Plain scalars
  | plainIndentation
  | plainHyphen
  | plainTab
  -- Block scalars
  | blockZero
  | blockHeader
  | blockContentTab
  | blockIndentation
  -- Structure
  | unexpectedEnd
  | duplicateVersion
  | missingDocumentStart
  | missingDocumentEnd
  | unknownAnchor
  | missingContent
  | missingMappingKey
  | missingSequenceEntry
  | missingFlowMappingEnd
  | missingFlowSequenceEnd
deriving Repr, DecidableEq

/-- A cause and the mark it is reported at. -/
structure Fault where
  mark : Mark
  cause : Cause
deriving Repr, DecidableEq

/-- The cause in words. -/
def Cause.message : Cause → String
  | staleKey => "simple key expect ':'"
  | missingKey => "simple key expected"
  | indentation => "invalid indentation"
  | blockTab => "tabs disallowed within this context (block indentation)"
  | nestingTooDeep => "recursion limit exceeded"
  | illegalValue => "illegal placement of ':' indicator"
  | valueTab => "':' must be followed by a valid YAML whitespace"
  | valueNotAllowed => "mapping values are not allowed in this context"
  | keyNotAllowed => "mapping keys are not allowed in this context"
  | missingWhitespace => "expected whitespace"
  | keyTab => "tabs disallowed in this context"
  | entryInFlow => "\"-\" is only valid inside a block"
  | entryNotAllowed => "block sequence entries are not allowed in this context"
  | entryTab => "'-' must be followed by a valid YAML whitespace"
  | anchorIndentation => "invalid indentation for anchor"
  | unexpectedCharacter c => "unexpected character: `" ++ String.singleton c ++ "'"
  | commentNotSeparated => "comments must be separated from other tokens by whitespace"
  | contentAfterDocumentEnd => "invalid content after document end marker"
  | emptyAnchor =>
    "while scanning an anchor or alias, did not find expected alphabetic or numeric character"
  | directiveName => "while scanning a directive, could not find expected directive name"
  | directiveNameEnd => "while scanning a directive, found unexpected non-alphabetical character"
  | directiveEnd => "while scanning a directive, did not find expected comment or line break"
  | versionNumber => "while scanning a YAML directive, did not find expected version number"
  | versionPoint =>
    "while scanning a YAML directive, did not find expected digit or '.' character"
  | versionTooLong => "while scanning a YAML directive, found extremely long version number"
  | tagMark => "while scanning a tag, did not find expected '!'"
  | tagHandleEnd => "while parsing a tag directive, did not find expected '!'"
  | tagGlobal => "invalid global tag character"
  | tagDirectiveEnd => "while scanning TAG, did not find expected whitespace or line break"
  | tagVerbatimEnd => "while scanning a verbatim tag, did not find the expected '>'"
  | tagSuffix => "while parsing a tag, did not find expected tag URI"
  | tagEnd => "while scanning a tag, did not find expected whitespace or line break"
  | tagEscape => "while parsing a tag, did not find URI escaped octet"
  | tagLeadingOctet => "while parsing a tag, found an incorrect leading UTF-8 octet"
  | tagTrailingOctet => "while parsing a tag, found an incorrect trailing UTF-8 octet"
  | tagCodePoint => "while parsing a tag, found an invalid UTF-8 codepoint"
  | tagUndeclared => "the handle wasn't declared"
  | quotedDocumentMark =>
    "while scanning a quoted scalar, found unexpected document indicator"
  | quotedEnd => "while scanning a quoted scalar, found unexpected end of stream"
  | quotedIndentation => "invalid indentation in quoted scalar"
  | quotedTab => "tab cannot be used as indentation"
  | quotedTrailing => "invalid trailing content after double-quoted scalar"
  | escapeUnknown => "while parsing a quoted scalar, found unknown escape character"
  | escapeDigits => "while parsing a quoted scalar, did not find expected hexadecimal number"
  | escapeCodePoint =>
    "while parsing a quoted scalar, found invalid Unicode character escape code"
  | plainIndentation => "invalid indentation in flow construct"
  | plainHyphen => "plain scalar cannot start with '-' followed by ,[]\x7b\x7d"
  | plainTab => "while scanning a plain scalar, found a tab"
  | blockZero =>
    "while scanning a block scalar, found an indentation indicator equal to 0"
  | blockHeader =>
    "while scanning a block scalar, did not find expected comment or line break"
  | blockContentTab => "a block scalar content cannot start with a tab"
  | blockIndentation => "wrongly indented line in block scalar"
  | unexpectedEnd => "unexpected eof"
  | duplicateVersion => "duplicate version directive"
  | missingDocumentStart => "did not find expected <document start>"
  | missingDocumentEnd => "missing explicit document end marker before directive"
  | unknownAnchor => "while parsing node, found unknown anchor"
  | missingContent => "while parsing a node, did not find expected node content"
  | missingMappingKey => "while parsing a block mapping, did not find expected key"
  | missingSequenceEntry =>
    "while parsing a block collection, did not find expected '-' indicator"
  | missingFlowMappingEnd =>
    "while parsing a flow mapping, did not find expected ',' or '\x7d'"
  | missingFlowSequenceEnd => "while parsing a flow sequence, expected ',' or ']'"

end YamlDelta.Markup
