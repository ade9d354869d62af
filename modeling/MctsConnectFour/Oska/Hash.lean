/-
The incremental hash of Oska.

The hash toggles keys as stones move and are captured, each stone's key
in the perspective of its owner. Whatever it was at the start, hash and
keys of the stones on the board therefore cancel to the same word all
game long (`hashBase`): `once_initialize` takes the human's keys in the
agent's coordinates, and this only changes what that word is.
-/
import MctsConnectFour.Lib.XorSum
import MctsConnectFour.Oska.Coherence

namespace MctsConnectFour.Oska

open XorSum (xorSum xorSum_cons xorSum_perm xorSum_map_erase xor_left_comm)

variable {S : Nat} {T : Statics S} {s : State S} {m : Move} {d : Int}

-- ================================================================ keys

/-- The key of a stone of `p`, in the perspective of `p`. -/
def stoneKey (T : Statics S) (p : Player) (id : Int) : UInt64 :=
  T.zobrist.keys.at' p.as01Index (T.locationOf p id).c (T.locationOf p id).r

/-- The keys of the stones of `p`. -/
def sideKeys (T : Statics S) (s : State S) (p : Player) : UInt64 :=
  xorSum ((s.stoneId p).map (stoneKey T p))

/-- The keys of all stones on the board. -/
def stoneKeys (T : Statics S) (s : State S) : UInt64 :=
  sideKeys T s .agent ^^^ sideKeys T s .human

/-- What the hash is apart from the stones on the board. -/
def hashBase (T : Statics S) (s : State S) : UInt64 := s.zobristHash ^^^ stoneKeys T s

theorem stoneKeys_eq {p : Player} (hp : p.IsSide) :
    stoneKeys T s = sideKeys T s p ^^^ sideKeys T s p.opponent := by
  rcases hp with rfl | rfl
  · rfl
  · exact UInt64.xor_comm ..

theorem hash_eq : s.zobristHash = hashBase T s ^^^ stoneKeys T s := by
  unfold hashBase
  rw [UInt64.xor_assoc, UInt64.xor_self, UInt64.xor_zero]

/-- The keys a move toggles. -/
theorem playHash_zobristHash (hp : s.playerToMove.IsSide) :
    (s.playHash T m).zobristHash =
      let hash := s.zobristHash
        ^^^ T.zobrist.keys.at' s.playerToMove.as01Index m.mFrom.c m.mFrom.r
        ^^^ T.zobrist.keys.at' s.playerToMove.as01Index m.mTo.c m.mTo.r
      if m.isCapture then hash ^^^ T.zobrist.keys.at' s.playerToMove.opponent.as01Index
        ((obCols S - 1) - m.captured.c) ((obRows S - 1) - m.captured.r)
      else hash := by
  have hplayer : ∀ t : State S, ∀ p : Player,
      (t.moveStoneHash T p m).playerToMove = t.playerToMove := fun t p => moveStone_playerToMove p
  unfold State.playHash
  rcases hp with hp | hp
  · simp only [hplayer, hp]
    split <;> rfl
  · simp only [hplayer, hp]
    split <;> rfl

section Step

variable (hS : 3 ≤ S) (hT : Located T)

include hS hT

/-- The key of the stone on a hexagon. -/
theorem stoneKey_idAt {p : Player} (hp : p.IsSide) {c r : Int} (h : Hexagon S c r) :
    stoneKey T p (T.idAt p c r) = T.zobrist.keys.at' p.as01Index c r := by
  unfold stoneKey
  rw [hT.locationOf_idAt hS hp h]

/-- The key of the other side's stone on a hexagon. -/
theorem stoneKey_opponent_idAt {p : Player} (hp : p.IsSide) {c r : Int} (h : Hexagon S c r) :
    stoneKey T p.opponent (T.idAt p c r)
      = T.zobrist.keys.at' p.opponent.as01Index (obCols S - 1 - c) (obRows S - 1 - r) := by
  have hid := idAt_opponent T hp.opponent c r
  rw [Player.opponent_opponent] at hid
  rw [hid, stoneKey_idAt hS hT hp.opponent ((hexagon_reflect hS).mpr h)]

/-- The mover's keys after a move. -/
theorem sideKeys_mover (h : Coherent T s) (hm : Steps s s.playerToMove m d) :
    sideKeys T (s.place T m) s.playerToMove
      = T.zobrist.keys.at' s.playerToMove.as01Index m.mTo.c m.mTo.r
        ^^^ (T.zobrist.keys.at' s.playerToMove.as01Index m.mFrom.c m.mFrom.r
          ^^^ sideKeys T s s.playerToMove) := by
  have hpl := h.placed hS hT hm
  obtain ⟨hto, -⟩ := hm.geometry hS h.side (h.viewed _ h.side)
  unfold sideKeys
  rw [xorSum_perm (hpl.own.map _), List.map_cons, xorSum_cons,
    xorSum_map_erase _ hpl.from_mem, stoneKey_idAt hS hT h.side hto,
    stoneKey_idAt hS hT h.side hm.hexagon]

/-- The other side's keys after a move. -/
theorem sideKeys_opponent (h : Coherent T s) (hm : Steps s s.playerToMove m d) :
    sideKeys T (s.place T m) s.playerToMove.opponent
      = if m.isCapture then
          T.zobrist.keys.at' s.playerToMove.opponent.as01Index (obCols S - 1 - m.captured.c)
              (obRows S - 1 - m.captured.r)
            ^^^ sideKeys T s s.playerToMove.opponent
        else sideKeys T s s.playerToMove.opponent := by
  have hpl := h.placed hS hT hm
  obtain ⟨-, hkind⟩ := hm.geometry hS h.side (h.viewed _ h.side)
  unfold sideKeys
  rw [hpl.other]
  rcases hkind with ⟨hno, -⟩ | ⟨hcap, -, -, hcapHex, -⟩
  · rw [if_neg (by rw [hno]; decide), if_neg (by rw [hno]; decide)]
  · rw [if_pos hcap, if_pos hcap, xorSum_map_erase _ (hpl.captured_mem hcap),
      stoneKey_opponent_idAt hS hT h.side hcapHex]

/-- A move toggles the hash by what it changes of the stones' keys. -/
theorem hashBase_playHash (h : Coherent T s) (hm : Steps s s.playerToMove m d) :
    hashBase T (s.playHash T m) = hashBase T s := by
  have hkeys : stoneKeys T (s.playHash T m) = stoneKeys T (s.place T m) := by
    rw [playHash_eq]
    rfl
  unfold hashBase
  rw [hkeys, stoneKeys_eq (s := s.place T m) h.side, stoneKeys_eq (s := s) h.side,
    sideKeys_mover hS hT h hm, sideKeys_opponent hS hT h hm, playHash_zobristHash h.side]
  generalize T.zobrist.keys.at' s.playerToMove.as01Index m.mTo.c m.mTo.r = a
  generalize T.zobrist.keys.at' s.playerToMove.as01Index m.mFrom.c m.mFrom.r = b
  generalize T.zobrist.keys.at' s.playerToMove.opponent.as01Index _ _ = c
  generalize sideKeys T s s.playerToMove = x
  generalize sideKeys T s s.playerToMove.opponent = y
  cases m.isCapture with
  | false =>
      simp only [Bool.false_eq_true, if_false, UInt64.xor_assoc, XorSum.xor_cancel_left]
  | true =>
      simp only [if_true, UInt64.xor_assoc]
      rw [xor_left_comm c a, xor_left_comm c b, xor_left_comm c x]
      simp only [XorSum.xor_cancel_left]

/-- Hash and stone keys of a game played with the hash kept up to date
cancel to what they were at the start. -/
theorem hashBase_run {s₀ : State S} (h₀ : Coherent T s₀)
    (hrun : (game T).Run (· ≠ .moveWinner) s₀ s) :
    Coherent T s ∧ hashBase T s = hashBase T s₀ := by
  refine hrun.invariant (I := fun s => Coherent T s ∧ hashBase T s = hashBase T s₀) ⟨h₀, rfl⟩ ?_
  intro s op m h' hop hm
  obtain ⟨h, hbase⟩ := h'
  obtain ⟨-, d, hstep⟩ := (mem_legal_iff hS hT h m).mp hm
  refine ⟨h.apply hS hT op hm, ?_⟩
  rw [← hbase, ← hashBase_playHash hS hT h hstep]
  cases op with
  | moveHash => rfl
  | moveHashWinner =>
      show hashBase T ((s.playHash T m).setWinner T).next = _
      rw [setWinner_eq]
      rfl
  | moveWinner => exact absurd rfl hop

omit hS hT in
/-- The agent's board determines the human's. -/
theorem Coherent.board_congr {t : State S} (h : Coherent T s) (h' : Coherent T t)
    (hboard : s.agentBoard = t.agentBoard) (p : Player) : s.board p = t.board p := by
  have hhuman : s.humanBoard = t.humanBoard := MaMatrix.ext_at' fun c r hr => by
    rw [h.mirror c r hr, h'.mirror c r hr, hboard]
  unfold State.board
  rw [hboard, hhuman]

omit hS hT in
/-- The same cells are the same ids, in whatever order. -/
theorem Coherent.stoneId_perm {t : State S} (h : Coherent T s) (h' : Coherent T t)
    (hboard : s.agentBoard = t.agentBoard) {p : Player} (hp : p.IsSide) :
    (s.stoneId p).Perm (t.stoneId p) := by
  refine (List.perm_ext_iff_of_nodup (h.viewed p hp).nodup (h'.viewed p hp).nodup).mpr fun id => ?_
  rw [(h.viewed p hp).stones, (h'.viewed p hp).stones, h.board_congr h' hboard]

omit hS hT in
/-- The stones on the board determine their keys. -/
theorem stoneKeys_congr {t : State S} (h : Coherent T s) (h' : Coherent T t)
    (hboard : s.agentBoard = t.agentBoard) : stoneKeys T s = stoneKeys T t := by
  have hside : ∀ p : Player, p.IsSide → sideKeys T s p = sideKeys T t p := fun p hp =>
    xorSum_perm ((h.stoneId_perm h' hboard hp).map _)
  unfold stoneKeys
  rw [hside _ (Or.inl rfl), hside _ (Or.inr rfl)]

end Step

/-- A game from `s₀` with the hash kept up to date. -/
abbrev HashRun (T : Statics S) (s₀ s : State S) : Prop :=
  (game T).Run (fun op => op = .moveHash ∨ op = .moveHashWinner) s₀ s

/-- The hash does not depend on the path from `s₀`: it is one word of the
game and the keys of the stones on the board, and games that end with
the same stones on the same cells and the same player to move end with
the same `zobrist ( )`. -/
structure PathIndependent (T : Statics S) (s₀ : State S) : Prop where
  base : ∃ const : UInt64, ∀ s, HashRun T s₀ s → s.zobristHash = const ^^^ stoneKeys T s
  zobrist : ∀ s t, HashRun T s₀ s → HashRun T s₀ t → s.agentBoard = t.agentBoard →
    s.playerToMove = t.playerToMove → zobrist T s = zobrist T t

/-- Whatever the key tables hold, the hash of a game from a freshly
initialised state is independent of the path. -/
theorem zobrist_pathIndependent (hS : 3 ≤ S) {T₀ : Statics S} {p : Player} (hp : p.IsSide)
    {ω : Rng} {x : Setup S} (hx : initializeState T₀ (new T₀ p) ω = some x)
    (Z : ZobristTables (obCols S) (obRows S)) :
    PathIndependent { x.statics with zobrist := Z } x.state := by
  obtain ⟨-, hloc, hstart, -⟩ := start_once hS hp hx
  have hT : Located { x.statics with zobrist := Z } := hloc
  have hrun : ∀ s, HashRun { x.statics with zobrist := Z } x.state s →
      Coherent { x.statics with zobrist := Z } s
        ∧ hashBase { x.statics with zobrist := Z } s
          = hashBase { x.statics with zobrist := Z } x.state := fun s hs =>
    hashBase_run hS hT (hstart.coherent hS hT) hs.hash_follows
  refine ⟨⟨hashBase { x.statics with zobrist := Z } x.state, fun s hs => ?_⟩,
    fun s t hs ht hboard hplayer => ?_⟩
  · rw [← (hrun s hs).2]
    exact hash_eq
  · obtain ⟨hcs, hbs⟩ := hrun s hs
    obtain ⟨hct, hbt⟩ := hrun t ht
    unfold Oska.zobrist
    rw [hash_eq (T := { x.statics with zobrist := Z }) (s := s),
      hash_eq (T := { x.statics with zobrist := Z }) (s := t), hbs, hbt, hplayer,
      stoneKeys_congr hcs hct hboard]

/-- The law for the smallest board. -/
theorem zobrist_pathIndependent_three :
    PathIndependent { smallSetup.statics with zobrist := smallStatics.zobrist }
      smallSetup.state :=
  zobrist_pathIndependent (by decide) (Or.inl rfl) initializeState_small _

end MctsConnectFour.Oska
