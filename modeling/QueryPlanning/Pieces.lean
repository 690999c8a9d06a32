/-!
# Pieces of a range

A range of bytes, cut from its beginning into pieces of bounded length. Files are cut into blocks in
this way, and blocks into scan ranges.
-/

namespace QueryPlanning

/-- Offsets and lengths of the pieces of `length` bytes from `offset` on, with at most `limit` bytes
each; without a positive limit there is one piece. -/
def pieces (limit offset length : Int) : List (Int × Int) :=
  if length ≤ 0 then []
  else if _h : 0 < limit ∧ limit < length then
    (offset, limit) :: pieces limit (offset + limit) (length - limit)
  else [(offset, length)]
termination_by length.toNat
decreasing_by omega

theorem pieces_of_nonpos {limit offset length : Int} (h : length ≤ 0) :
    pieces limit offset length = [] := by
  rw [pieces, if_pos h]

end QueryPlanning
