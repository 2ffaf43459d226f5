import ZoneScript.Yaml.Quoted

/-!
# Plain scalars

A scalar without quotes ends at a colon with a gap after it, at a comment, at a document marker, and
at a line that is not indented deeper than the collection around it; in a flow collection also at the
characters that structure it. Lines are folded as in quoted scalars.
-/

namespace ZoneScript.Yaml

/-- The characters that structure a flow collection. -/
def isFlowMark (c : Char) : Bool :=
  c == ',' || c == '[' || c == ']' || c == '\x7b' || c == '\x7d'

/-- A plain scalar as read: its text, where it ends, where reading goes on, and whether a line break
stands between the two. -/
structure PlainScalar where
  text : List Char
  stop : Mark
  next : Cursor
  brokeLine : Bool
  deriving Repr, Inhabited

/-- The rest of a plain scalar: the characters read so far, last first, where the last of them ends,
and the gap after them. -/
def readPlain (flow : Bool) (indent : Int) :
    Nat → List Char → Mark → Gap → Cursor → Except Problem PlainScalar
  | 0, done, stop, gap, cursor => .ok ⟨done.reverse, stop, cursor, gap.hasBreak⟩
  | fuel + 1, done, stop, gap, cursor =>
    let finished : PlainScalar := ⟨done.reverse, stop, cursor, gap.hasBreak⟩
    match cursor.rest with
    | [] => .ok finished
    | c :: _ =>
      if isBlank c then
        if gap.hasBreak && c == '\t' && (cursor.mark.column : Int) < indent then
          .error ⟨"found a tab character that violates indentation", cursor.mark,
            some "while scanning a plain scalar"⟩
        else readPlain flow indent fuel done stop (gap.addBlank c) (cursor.skip 1)
      else match cursor.lineBreak? with
      | some (text, next) => readPlain flow indent fuel done stop (gap.addBreak text) next
      | none =>
        let afterGap := gap != .none || done.isEmpty
        if gap != .none && !flow && (cursor.mark.column : Int) < indent then .ok finished
        else if afterGap && (cursor.atDocumentMarker || c == '#') then .ok finished
        else if flow && c == ':' && ((cursor.peek? 1).any fun d => isFlowMark d || d == '?') then
          .error ⟨"found unexpected ':'", cursor.mark, some "while scanning a plain scalar"⟩
        else if (c == ':' && isGap (cursor.peek? 1)) || (flow && isFlowMark c) then .ok finished
        else
          readPlain flow indent fuel (c :: (gap.fold.reverse ++ done)) (cursor.mark.advance 1) .none
            (cursor.skip 1)

/-- The plain scalar at the cursor, inside a collection that is indented less than `indent`. Also
says whether a line break follows it. -/
def plainScalar (flow : Bool) (indent : Int) (cursor : Cursor) :
    Except Problem (Token × Cursor × Bool) :=
  (readPlain flow indent (cursor.rest.length + 1) [] cursor.mark .none cursor).map fun p =>
    (⟨.scalar (.ofList p.text) .plain, cursor.mark, p.stop⟩, p.next, p.brokeLine)

end ZoneScript.Yaml
