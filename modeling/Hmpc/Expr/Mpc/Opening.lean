/-
# Hmpc.Expr.Mpc.Opening -- opening what has been computed on shares

Every party evaluates its own expression into a tensor, and an `all_gather` sends the tensors to the
receivers. What a receiver has in the end, its own tensor and what its receives were answered with,
are shares of the value of the expression. So all receivers reconstruct this value, in whichever
order the kernels, the tasks and the network make their steps: `opening_correct`.
-/
import Hmpc.Comp.Tensor
import Hmpc.Expr.Mpc.Share
import Hmpc.Ints.Residue
import Hmpc.Net.Termination

namespace Hmpc.Expr.Mpc

open Hmpc.Comp Hmpc.Ints Hmpc.Lib Hmpc.Lib.Matching Hmpc.Net

/-! ## Tensors of all parties -/

section

variable {sessions : Bool} {δ : Type} {setup : Setup sessions δ} {history : List Operation}

/-- A collective is an `all_gather` with the parties of a communicator as senders. -/
structure Gathers (C : Communicator) (collective : Numbered) : Prop where
  kind : collective.1.kind = .allGather
  senders : collective.1.senders.toList = C.parties

/-- The pointers that a party passes to a collective for itself point to these bytes. -/
def Points (setup : Setup sessions δ) (collective : Numbered) (p : PartyID) (bytes : List Byte) :
    Prop :=
  ∀ queue ∈ (QueueState.initial δ p).calls setup.build setup.cfg.crypto.hash
      ((setup.program p).map fun call => (call, true)),
    ∀ receiver data,
      .send (collective.message setup.cfg.crypto.hash p receiver) data ∈ queue.log →
        (collective.message setup.cfg.crypto.hash p receiver).dataAsSlice (setup.memory p data) =
          bytes

/-- What party `p` has of the tensor of party `q` when an `all_gather` has returned: the own tensor,
or what the receive was answered with. -/
def gathered (setup : Setup sessions δ) (s : System δ) (collective : Numbered) (p : PartyID)
    (own : List Byte) (q : PartyID) : List Byte :=
  if q = p then own
  else ((valuesAt (collective.message setup.cfg.crypto.hash q p)
    (MessageBuffer.answers (s.parties p).buffer.2)).map Prod.snd).headD []

/-- A receiver has the bytes of every party. -/
theorem gathered_eq (hvalid : setup.Valid history) {s : System δ} (h : setup.Inv s)
    (hfinished : setup.Finished s) {C : Communicator} {collective : Numbered}
    (hcollective : collective ∈ numbered setup.cfg.crypto.hash history)
    (hgathers : Gathers C collective) {bytes : PartyID → List Byte}
    (hpoints : ∀ q ∈ C.parties, Points setup collective q (bytes q)) {p q : PartyID}
    (hp : p ∈ collective.1.receivers) (hq : q ∈ C.parties) :
    gathered setup s collective p (bytes p) q = bytes q := by
  unfold gathered
  split_ifs with hsame
  · rw [hsame]
  obtain ⟨o, ho, hi⟩ := exists_operation hcollective
  have hclosed := hvalid.closed o ho _ hi
  rw [← hgathers.senders] at hq
  have hpSetup := hclosed p (List.mem_append_left _ (List.mem_append_right _ hp))
  have hqSetup := hclosed q (List.mem_append_left _ (List.mem_append_left _ hq))
  obtain ⟨hprogram, hidle⟩ := hfinished p hpSetup
  -- the receiver asked for the message, and got what the sender had
  have hsends : collective.1.sends q p = true := by
    rw [Collective.sends, hgathers.kind]
    simp only [Bool.and_eq_true, decide_eq_true_eq]
    exact ⟨hsame, hq, hp⟩
  have hwants := ((h.saying hvalid hpSetup hprogram).wants
    (collective.message setup.cfg.crypto.hash q p)).mpr ⟨collective, hcollective, hsends, rfl⟩
  obtain ⟨action, haction, hmem⟩ := List.mem_flatMap.mp hwants
  cases action with
  | receive m data =>
      obtain rfl := List.mem_singleton.mp hmem
      obtain ⟨sent, hsend, hvalues⟩ := h.valuesAt_receive hvalid hpSetup hidle haction
      rw [hvalues, List.headD_cons]
      exact hpoints q (hgathers.senders ▸ hq) _ (h.calls_eq hqSetup (hfinished q hqSetup).1) p sent
        hsend
  | _ => cases hmem

end

/-! ## Opening -/

/-- The share of the value of an expression that a party computes, at some coordinates. -/
def shareAt {V W R : Type} [CommRing R] {C : Communicator} (e : Arithmetic V W)
    (m : Fin C.size → Interpretation R) (other : Fin C.size → ArrayExpression → List ℕ → R)
    (x : V → ∀ i, ShareExpression ArrayExpression C (C.get i))
    (c : W → Fin C.size → ArrayExpression) (coordinates : List ℕ) (i : Fin C.size) :
    ShareExpression R C (C.get i) :=
  (e.expression (fun v => x v i) (fun p => c p i)).evaluate fun s =>
    s.denote (m i).ofRing (other i) coordinates

/-- **Opening.** When a session has finished in which the shares of an expression were gathered,
every receiver reconstructs the value of the expression at every index. -/
theorem opening_correct {sessions : Bool} {δ V W : Type} (setup : Setup sessions δ)
    (history : List Operation) (hvalid : setup.Valid history) (moves : List Move) (s : System δ)
    (hrun : setup.run moves = some s) (hfinished : setup.Finished s) (C : Communicator)
    (collective : Numbered) (hcollective : collective ∈ numbered setup.cfg.crypto.hash history)
    (hgathers : Gathers C collective) {N : Modulus} {size : ℕ} (e : Arithmetic V W)
    (m : Fin C.size → Interpretation (Residue 32 N))
    (other : Fin C.size → ArrayExpression → List ℕ → Residue 32 N)
    (x : V → ∀ i, ShareExpression ArrayExpression C (C.get i))
    (c : W → Fin C.size → ArrayExpression) (coordinates : ℕ → List ℕ)
    (value : V → ℕ → Residue 32 N) (d : W → ℕ → Residue 32 N)
    (hshared : ∀ v k, (shares fun i => shareAt (.share v : Arithmetic V W) m other x c
      (coordinates k) i).reconstruct = some (value v k))
    (hpublic : ∀ p i k, (c p i).denote (m i).ofRing (other i) (coordinates k) = d p k)
    (initial : Fin C.size → Tensor (8 * 4) (N.limbSize 32) size) (order : Fin C.size → List ℕ)
    (horder : ∀ i, (order i).Perm (List.range size)) (bytes : PartyID → List Byte)
    (hbytes : ∀ i, bytes (C.get i) = ((initial i).fill (fun k =>
      (shareAt e m other x c (coordinates k) i).value.val.limbs) (order i)).bytes)
    (hpoints : ∀ q ∈ C.parties, Points setup collective q (bytes q)) (p : PartyID)
    (hp : p ∈ collective.1.receivers) (k : ℕ) (hk : k < size) :
    ∃ y : ∀ i, ShareExpression (Residue 32 N) C (C.get i),
      (∀ i, (y i).value.val.limbs = (Tensor.ofBytes 4 (N.limbSize 32) size
        (gathered setup s collective p (bytes p) (C.get i))).read k) ∧
      (shares y).reconstruct = some (e.value (fun v => value v k) fun p => d p k) := by
  refine ⟨fun i => shareAt e m other x c (coordinates k) i, fun i => ?_, ?_⟩
  · have hmem : C.get i ∈ C.parties := List.get_mem _ _
    rw [gathered_eq hvalid (Setup.inv_run hvalid hrun) hfinished hcollective hgathers hpoints hp
      hmem, hbytes i, Tensor.ofBytes_bytes, Tensor.read_fill (fun k => Mod.limb_size _) (horder i) _
        hk]
  · have hvalue (v : V) : value v k =
        ∑ i, (x v i).value.denote (m i).ofRing (other i) (coordinates k) := by
      have hone := hshared v k
      rw [reconstruct_shares] at hone
      exact (Option.some.inj hone).symm
    rw [reconstruct_shares]
    simp only [hvalue]
    exact congrArg some (sum_expression (fun i => evaluates_denote (m i) (other i) (coordinates k))
      x c (fun p i => hpublic p i k) e)

/-! ### Three parties -/

/-- The two parties that publish something to all three. -/
def publishers : Communicator := ⟨[0, 1], by decide, by decide⟩

/-- The third operation of the recorded history. -/
def publication : Numbered := (.ofAllGather Recorded.firstTwo Recorded.everyone ⟨7, 32⟩, 0)

/-- A prime of one limb. -/
def mersenne : Modulus := ⟨31, .normal, 2 ^ 31 - 1, by decide, by decide, by decide⟩

/-- The element with the own id in every byte. -/
def ownLimbs (i : Fin publishers.size) : Mod 32 mersenne :=
  ⟨[BitVec.ofNat 32 (0x01010101 * i.val)], rfl⟩

theorem reduced_ownLimbs (i : Fin publishers.size) : (ownLimbs i).Reduced := by
  have h : ∀ i, Limbs.value (ownLimbs i).limbs < mersenne.toNat := by decide
  exact h i

def ownShare (i : Fin publishers.size) : Residue 32 mersenne := ⟨ownLimbs i, reduced_ownLimbs i⟩

/-- The summands of two shared values that a party has. -/
def summand (v : Bool) (i : Fin publishers.size) : Residue 32 mersenne :=
  match v with
  | false => ownShare i + 3
  | true => if publishers.get publishers.zero = publishers.get i then -8 else -3

/-- The memory of the device of a party: its shares, and five as the public value. -/
def ownMemory (i : Fin publishers.size) : Interpretation (Residue 32 mersenne) where
  tensor _ _ := 0
  value tag := if tag = 0 then summand false i else if tag = 1 then summand true i else 5
  cast _ v := v
  apply _ v _ := v

/-- The sum of the two values and the public one. -/
def published : Arithmetic Bool Unit := .add (.share false) (.addPublic (.share true) ())

def ownOperand (v : Bool) (i : Fin publishers.size) :
    ShareExpression ArrayExpression publishers (publishers.get i) :=
  .fromParts (.value ⟨0, 0⟩ v.toNat)

theorem shareAt_published (i : Fin publishers.size) (coordinates : List ℕ) :
    shareAt published ownMemory (fun _ _ _ => 0) ownOperand (fun _ _ => .value ⟨0, 0⟩ 2)
      coordinates i = ⟨ownShare i⟩ := by
  have hsum (e : ArrayExpression) (h : e.denote (ownMemory i).ofRing (fun _ _ => 0) coordinates =
      summand true i + if publishers.get publishers.zero = publishers.get i then 5 else 0) :
      (ownShare i + 3 : Residue 32 mersenne) +
        e.denote (ownMemory i).ofRing (fun _ _ => 0) coordinates = ownShare i := by
    rw [h, summand]
    split_ifs <;> ring
  unfold shareAt ShareExpression.evaluate ShareExpression.fromParts
  congr 1
  refine hsum _ ?_
  exact value_addPublic (evaluates_denote (ownMemory i) (fun _ _ => 0) coordinates) _ _

/-- However the session of the three parties runs, party 2 ends with shares of the sum. -/
theorem opening_correct_three : ∃ moves s, Recorded.threeParties.run moves = some s ∧
    ∀ k < 8, ∃ y : ∀ i, ShareExpression (Residue 32 mersenne) publishers (publishers.get i),
      (∀ i, (y i).value.val.limbs = (Tensor.ofBytes 4 (mersenne.limbSize 32) 8
        (gathered Recorded.threeParties s publication 2 [] (publishers.get i))).read k) ∧
      (shares y).reconstruct =
        some (∑ i, summand false i + (∑ i, summand true i + 5)) := by
  obtain ⟨moves, s, hrun, hstuck⟩ :=
    exists_run_to_end (Setup.inv_initial Recorded.threeParties_valid)
      (progress_of_move Recorded.threeParties_valid)
  have hfinished := finished_of_stuck (Setup.inv_run Recorded.threeParties_valid hrun)
    Recorded.threeParties_valid (Setup.fits_run hrun) hstuck
  refine ⟨moves, s, hrun, fun k hk => ?_⟩
  have hcollective : publication ∈ numbered Recorded.threeParties.cfg.crypto.hash
      Recorded.history := List.mem_of_getElem? (i := 3) (by rfl)
  -- every pointer of a party points to its id
  have hpoints : ∀ q ∈ publishers.parties, Points Recorded.threeParties publication q
      (if q = 2 then [] else List.replicate 32 (BitVec.setWidth 8 q)) := by
    intro q hq queue _ receiver data _
    have hcases : q = 0 ∨ q = 1 := List.mem_pair.mp hq
    rcases hcases with rfl | rfl <;> rfl
  let empty : Tensor (8 * 4) (mersenne.limbSize 32) 8 := Tensor.ofBytes 4 _ 8 []
  have hbytes (i : Fin publishers.size) : (if publishers.get i = 2 then [] else
      List.replicate 32 (BitVec.setWidth 8 (publishers.get i))) =
        (empty.fill (fun _ => (ownShare i).val.limbs) (List.range 8)).bytes := by
    revert i
    decide
  exact opening_correct Recorded.threeParties Recorded.history Recorded.threeParties_valid moves s
    hrun hfinished publishers publication hcollective ⟨rfl, rfl⟩ published ownMemory
    (fun _ _ _ => 0) ownOperand (fun _ _ => .value ⟨0, 0⟩ 2) (fun _ => [])
    (fun v _ => ∑ i, summand v i) (fun _ _ => 5)
    (fun v _ => (reconstruct_shares _).trans (by cases v <;> rfl)) (fun _ _ _ => rfl)
    (fun _ => empty) (fun _ => List.range 8) (fun _ => List.Perm.refl _)
    (fun p => if p = 2 then [] else List.replicate 32 (BitVec.setWidth 8 p))
    (fun i => by simp only [shareAt_published]; exact hbytes i) hpoints 2 (by decide) k hk

end Hmpc.Expr.Mpc
