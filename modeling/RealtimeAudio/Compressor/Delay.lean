import RealtimeAudio.Segment

/-! Delay lines. A line holds the last samples of one channel; a block that is put
through it comes out that many samples late. The exchange happens in place, in one of
two ways: a block at least as long as the line is turned round by the line's length and
gives its head for the line, and a shorter block changes places with the head of the
line, which is then turned. Pieces that are exchanged have to be equally long. -/
namespace RealtimeAudio.Delay
variable {α : Type}

/-- Put `block` through `line`, which holds `length` samples: the delayed block, and the
line afterwards. -/
def exchange? (length : Nat) (line block : List α) : Option (List α × List α) :=
  if length ≤ block.length then
    let turned := block.rotateRight length
    if line.length = length then some (line ++ turned.drop length, turned.take length) else none
  else do
    let out ← Segment.read? 0 block.length line
    let line ← Segment.write? 0 block line
    return (out, line.rotateLeft block.length)

/-- Put each channel's block through that channel's line. Lines without a block stay. -/
def exchangeAll? (length : Nat) :
    (lines blocks : List (List α)) → Option (List (List α) × List (List α))
  | line :: lines, block :: blocks => do
    let (out, line) ← exchange? length line block
    let (outs, lines) ← exchangeAll? length lines blocks
    return (out :: outs, line :: lines)
  | lines, blocks => some (blocks, lines)

end RealtimeAudio.Delay
