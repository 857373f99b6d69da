/-
  Containers: a header and the payload it announces.

  * `Container.encode`: the container for a board, in one piece;
  * `Container.encodeNamed`: the same for a board given by name;
  * `length_of_encode`: a container is the header's size longer than its payload.
-/
import OtaPack.Container.Header

namespace OtaPack

namespace Container

/-- The container with `payload` for `board`.  `compressed` sets the version flag and nothing else:
    the payload is taken as it is. -/
def encode (board : Board) (payload : Bytes) (compressed : Bool) : Except PackError Bytes := do
  let header ← Header.build board ⟨compressed⟩ payload
  return header.toBytes ++ payload

/-- The container with `payload` for the supported board called `name`. -/
def encodeNamed (name : String) (payload : Bytes) (compressed : Bool) : Except PackError Bytes := do
  encode (← Board.lookup name) payload compressed

theorem encode_eq_ok {board : Board} {payload c : Bytes} {compressed : Bool} :
    encode board payload compressed = .ok c ↔
      ∃ h, Header.build board ⟨compressed⟩ payload = .ok h ∧ c = h.toBytes ++ payload := by
  unfold encode
  cases Header.build board ⟨compressed⟩ payload <;>
    simp [bind, Except.bind, pure, Except.pure, eq_comm]

/-- A container is longer than its payload by the size of the header. -/
theorem length_of_encode {board : Board} {payload c : Bytes} {compressed : Bool}
    (h : encode board payload compressed = .ok c) : c.length = Header.size + payload.length := by
  obtain ⟨_, _, rfl⟩ := encode_eq_ok.1 h
  simp

end Container

end OtaPack
