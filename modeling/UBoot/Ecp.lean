import UBoot.Mpi

/-!
# Points of an elliptic curve: `lib/mbedtls/ecp.c`

Short Weierstrass curves in Jacobian coordinates, and the multiplication by a comb.
The groups have no `modp` of their own, so that products are reduced by
`mbedtls_mpi_mod_mpi`.
-/

set_option autoImplicit false

namespace UBoot.Ecp

open Mpi

/-- `mbedtls_ecp_point`; `Z` is `none` where it was freed or never set, and reads as 0. -/
structure EcpPoint where
  X : ℤ
  Y : ℤ
  Z : Option ℤ
  deriving DecidableEq, Repr

def EcpPoint.z (pt : EcpPoint) : ℤ := pt.Z.getD 0

/-- `mbedtls_ecp_group` as `ecp_group_load` sets it; `A` is `none` for -3. -/
structure EcpGroup where
  P : ℕ
  A : Option ℕ
  B : ℕ
  G : EcpPoint
  N : ℕ
  deriving DecidableEq, Repr

/-- `nbits`, the length of `N`. -/
def EcpGroup.nbits (g : EcpGroup) : ℕ := g.N.size

/-- `mbedtls_ecp_set_zero` -/
def setZero : EcpPoint := ⟨1, 1, some 0⟩

/-- `mbedtls_ecp_is_zero` -/
def isZero (pt : EcpPoint) : Bool := pt.z == 0

section Coordinates

variable (g : EcpGroup)

/-- `MOD_MUL`: the loops of `mbedtls_mpi_mod_mpi`, whose modulus is positive. -/
def modMul (N : ℤ) : ℤ := Mpi.norm g.P (N.tmod g.P)

/-- `MOD_SUB` -/
def modSub (N : ℤ) : ℤ := addWhile g.P N.natAbs N

/-- `MOD_ADD` -/
def modAdd (N : ℤ) : ℤ := subWhile g.P N.natAbs N

/-- `ecp_normalize_jac` -/
def normalizeJac (pt : EcpPoint) : Except Err EcpPoint :=
  if pt.z = 0 then .ok pt
  else do
    let Zi ← invMod pt.z g.P
    let ZZi := modMul g (Zi*Zi)
    let X := modMul g (pt.X*ZZi)
    let Y := modMul g (pt.Y*ZZi)
    let Y := modMul g (Y*Zi)
    .ok ⟨X, Y, some 1⟩

/-- `ecp_safe_invert_jac` -/
def safeInvertJac (Q : EcpPoint) (inv : Bool) : EcpPoint :=
  let mQY := g.P-Q.Y
  let nonzero := Q.Y != 0
  if inv && nonzero then { Q with Y := mQY } else Q

/-- `ecp_double_jac` -/
def doubleJac (P : EcpPoint) : EcpPoint :=
  let M :=
    match g.A with
    | none =>
      let S := modMul g (P.z*P.z)
      let T := modAdd g (P.X+S)
      let U := modSub g (P.X-S)
      let S := modMul g (T*U)
      modAdd g (S*3)
    | some A =>
      let S := modMul g (P.X*P.X)
      let M := modAdd g (S*3)
      if A ≠ 0 then
        let S := modMul g (P.z*P.z)
        let T := modMul g (S*S)
        let S := modMul g (T*A)
        modAdd g (M+S)
      else M
  let T := modMul g (P.Y*P.Y)
  let T := modAdd g (T*2)
  let S := modMul g (P.X*T)
  let S := modAdd g (S*2)
  let U := modMul g (T*T)
  let U := modAdd g (U*2)
  let T := modMul g (M*M)
  let T := modSub g (T-S)
  let T := modSub g (T-S)
  let S := modSub g (S-T)
  let S := modMul g (S*M)
  let S := modSub g (S-U)
  let U := modMul g (P.Y*P.z)
  let U := modAdd g (U*2)
  ⟨T, S, some U⟩

/-- `ecp_add_mixed`; the coordinates of `Q` are affine. -/
def addMixed (P Q : EcpPoint) : Except Err EcpPoint :=
  if P.z = 0 then .ok Q
  else if Q.Z.isSome ∧ Q.z = 0 then .ok P
  else if Q.Z.isSome ∧ Q.z ≠ 1 then .error .ecpBadInputData
  else
    let T1 := modMul g (P.z*P.z)
    let T2 := modMul g (T1*P.z)
    let T1 := modMul g (T1*Q.X)
    let T2 := modMul g (T2*Q.Y)
    let T1 := modSub g (T1-P.X)
    let T2 := modSub g (T2-P.Y)
    if T1 = 0 then
      if T2 = 0 then .ok (doubleJac g P) else .ok setZero
    else
      let Z := modMul g (P.z*T1)
      let T3 := modMul g (T1*T1)
      let T4 := modMul g (T3*T1)
      let T3 := modMul g (T3*P.X)
      let T1 := modAdd g (T3*2)
      let X := modMul g (T2*T2)
      let X := modSub g (X-T1)
      let X := modSub g (X-T4)
      let T3 := modSub g (T3-X)
      let T3 := modMul g (T3*T2)
      let T4 := modMul g (T4*P.Y)
      let Y := modSub g (T3-T4)
      .ok ⟨X, Y, some Z⟩

/-- `ecp_check_pubkey_sw` behind the test of `mbedtls_ecp_check_pubkey`. -/
def checkPubkey (pt : EcpPoint) : Except Err Unit :=
  if pt.z ≠ 1 then .error .ecpInvalidKey
  else if pt.X < 0 ∨ pt.Y < 0 ∨ pt.X ≥ g.P ∨ pt.Y ≥ g.P then .error .ecpInvalidKey
  else
    let YY := modMul g (pt.Y*pt.Y)
    let RHS := modMul g (pt.X*pt.X)
    let RHS :=
      match g.A with
      | none => modSub g (RHS-3)
      | some A => modAdd g (RHS+A)
    let RHS := modMul g (RHS*pt.X)
    let RHS := modAdd g (RHS+g.B)
    if YY ≠ RHS then .error .ecpInvalidKey else .ok ()

/-- `mbedtls_ecp_check_privkey` -/
def checkPrivkey (d : ℤ) : Except Err Unit :=
  if d < 1 ∨ d ≥ g.N then .error .ecpInvalidKey else .ok ()

/-! ## Arrays of points -/

/-- The products of `ecp_normalize_jac_many`. -/
def products (T : ℕ → EcpPoint) (TT : List ℕ) : ℕ → ℤ
  | 0 => (T (TT.getD 0 0)).z
  | i+1 => modMul g (products T TT i*(T (TT.getD (i+1) 0)).z)

/-- The entry `k` with the inverse of its `Z`. -/
def setNormalized (T : ℕ → EcpPoint) (k : ℕ) (Zi : ℤ) : ℕ → EcpPoint :=
  let ZZi := modMul g (Zi*Zi)
  let X := modMul g ((T k).X*ZZi)
  let Y := modMul g ((T k).Y*ZZi)
  let Y := modMul g (Y*Zi)
  Function.update T k ⟨X, Y, none⟩

/-- The loop back to entry 0. -/
def normalizeBack (c : ℕ → ℤ) (TT : List ℕ) : ℕ → (ℕ → EcpPoint) → ℤ → (ℕ → EcpPoint)
  | 0, T, u => setNormalized g T (TT.getD 0 0) u
  | i+1, T, u =>
    let Zi := modMul g (u*c i)
    let u := modMul g (u*(T (TT.getD (i+1) 0)).z)
    normalizeBack c TT i (setNormalized g T (TT.getD (i+1) 0) Zi) u

/-- `ecp_normalize_jac_many`; `TT` holds the indices of the points. -/
def normalizeJacMany (T : ℕ → EcpPoint) (TT : List ℕ) : Except Err (ℕ → EcpPoint) :=
  if TT.length < 2 then do
    let pt ← normalizeJac g (T (TT.getD 0 0))
    .ok (Function.update T (TT.getD 0 0) pt)
  else do
    let u ← invMod (products g T TT (TT.length-1)) g.P
    .ok (normalizeBack g (products g T TT) TT (TT.length-1) T u)

/-! ## The comb -/

/-- `mbedtls_mpi_get_bit` -/
def getBit (m : ℤ) (pos : ℕ) : ℕ := (m.natAbs.testBit pos).toNat

/-- The classical comb values of `ecp_comb_fixed`. -/
def combClassic (d w : ℕ) (m : ℤ) (i : ℕ) : ℕ :=
  if i < d then (List.range w).foldl (fun x j => x ||| getBit m (i+d*j) <<< j) 0 else 0

/-- A round of its second loop, over the array and the carry. -/
def combRound (s : (ℕ → ℕ) × ℕ) (i : ℕ) : (ℕ → ℕ) × ℕ :=
  let x := s.1
  let c := s.2
  let cc := x i &&& c
  let x := Function.update x i (x i ^^^ c)
  let c := cc
  let adjust := 1-(x i &&& 1)
  let c := c ||| x i &&& x (i-1)*adjust
  let x := Function.update x i (x i ^^^ x (i-1)*adjust)
  let x := Function.update x (i-1) (x (i-1) ||| adjust <<< 7)
  (x, c)

/-- `ecp_comb_fixed` -/
def combFixed (d w : ℕ) (m : ℤ) : ℕ → ℕ :=
  ((List.range' 1 d).foldl combRound (combClassic d w m, 0)).1

/-- The powers of two up to `2^(w-2)`, which `i` takes in `ecp_precompute_comb`. -/
def powers (w : ℕ) : List ℕ := (List.range (w-1)).map (2^·)

/-- Its first loop. -/
def precomputePowers (d : ℕ) (T : ℕ → EcpPoint) (i : ℕ) : ℕ → EcpPoint :=
  Function.update T i ((doubleJac g)^[d] (T (i >>> 1)))

/-- `while( j-- )` -/
def precomputeSums (i : ℕ) : ℕ → (ℕ → EcpPoint) → Except Err (ℕ → EcpPoint)
  | 0, T => .ok T
  | j+1, T => do
    let pt ← addMixed g (T j) (T i)
    precomputeSums i j (Function.update T (i+j) pt)

/-- `ecp_precompute_comb` -/
def precomputeComb (P : EcpPoint) (w d : ℕ) : Except Err (ℕ → EcpPoint) := do
  let T := Function.update (fun _ => ⟨0, 0, none⟩) 0 P
  let T := (powers w).foldl (precomputePowers g d) T
  let T ← normalizeJacMany g T (powers w)
  let T ← (powers w).foldlM (fun T i => precomputeSums g i i T) T
  normalizeJacMany g T ((powers w).flatMap fun i => (List.range i).reverse.map (i+·))

/-- `ecp_select_comb`; `R` keeps its `Z`. -/
def selectComb (R : EcpPoint) (T : ℕ → EcpPoint) (tLen i : ℕ) : EcpPoint :=
  let ii := (i &&& 0x7F) >>> 1
  let R := (List.range tLen).foldl
    (fun R j => if j = ii then { R with X := (T j).X, Y := (T j).Y } else R) R
  safeInvertJac g R (i >>> 7 != 0)

/-- `ecp_randomize_jac`, with the `l` that it draws. -/
def randomizeJac (l : ℤ) (pt : EcpPoint) : EcpPoint :=
  let Z := modMul g (pt.z*l)
  let ll := modMul g (l*l)
  let X := modMul g (pt.X*ll)
  let ll := modMul g (ll*l)
  let Y := modMul g (pt.Y*ll)
  ⟨X, Y, some Z⟩

/-- The loop of `ecp_mul_comb_core`. -/
def combLoop (T : ℕ → EcpPoint) (tLen : ℕ) (x : ℕ → ℕ) : ℕ → EcpPoint → Except Err EcpPoint
  | 0, R => .ok R
  | i+1, R => do
    let R := doubleJac g R
    let Txi := selectComb g ⟨0, 0, none⟩ T tLen (x i)
    let R ← addMixed g R Txi
    combLoop T tLen x i R

/-- `ecp_mul_comb_core`; `l` is what the random numbers give, where there are any. -/
def mulCombCore (R : EcpPoint) (T : ℕ → EcpPoint) (tLen : ℕ) (x : ℕ → ℕ) (d : ℕ) (l : Option ℤ) :
    Except Err EcpPoint :=
  let R := selectComb g R T tLen (x d)
  let R := { R with Z := some 1 }
  let R :=
    match l with
    | some l => randomizeJac g l R
    | none => R
  combLoop g T tLen x d R

/-- The window of `ecp_mul_comb`. -/
def window (pEqG : Bool) : ℕ :=
  let w := if g.nbits ≥ 384 then 5 else 4
  let w := if pEqG then w+1 else w
  let w := if w > 6 then 6 else w
  if w ≥ g.nbits then 2 else w

/-- `( grp->nbits + w - 1 ) / w` -/
def columns (w : ℕ) : ℕ := (g.nbits+w-1)/w

/-- `T = p_eq_g ? grp->T : NULL`, and a new table where there is none. -/
def combTable (cache : Option (ℕ → EcpPoint)) (pEqG : Bool) (P : EcpPoint) (w d : ℕ) :
    Except Err (ℕ → EcpPoint) :=
  match if pEqG then cache else none with
  | some T => .ok T
  | none => precomputeComb g P w d

/-- `ecp_mul_comb`, with `grp->T` and what it is left at. -/
def mulComb (cache : Option (ℕ → EcpPoint)) (R : EcpPoint) (m : ℤ) (P : EcpPoint) (l : Option ℤ) :
    Except Err (EcpPoint × Option (ℕ → EcpPoint)) :=
  if getBit g.N 0 ≠ 1 then .error .ecpBadInputData
  else do
    let pEqG := P.Y == g.G.Y && P.X == g.G.X
    let w := window g pEqG
    let preLen := 2^(w-1)
    let d := columns g w
    let T ← combTable g cache pEqG P w d
    let cache := if pEqG then some T else cache
    let mIsOdd := getBit m 0 == 1
    let M := if mIsOdd then m else g.N-m
    let R ← mulCombCore g R T preLen (combFixed d w M) d l
    let R := safeInvertJac g R (!mIsOdd)
    let R ← normalizeJac g R
    .ok (R, cache)

/-- `mbedtls_ecp_mul` -/
def ecpMul (cache : Option (ℕ → EcpPoint)) (R : EcpPoint) (m : ℤ) (P : EcpPoint) (l : Option ℤ) :
    Except Err (EcpPoint × Option (ℕ → EcpPoint)) :=
  if P.z ≠ 1 then .error .ecpBadInputData
  else do
    checkPrivkey g m
    checkPubkey g P
    mulComb g cache R m P l

/-- `mbedtls_ecp_mul_shortcuts` -/
def mulShortcuts (cache : Option (ℕ → EcpPoint)) (R : EcpPoint) (m : ℤ) (P : EcpPoint) :
    Except Err (EcpPoint × Option (ℕ → EcpPoint)) :=
  if m = 1 then .ok (P, cache)
  else if m = -1 then .ok (if P.Y ≠ 0 then { P with Y := g.P-P.Y } else P, cache)
  else ecpMul g cache R m P none

/-- `mbedtls_ecp_muladd` -/
def muladd (cache : Option (ℕ → EcpPoint)) (R : EcpPoint) (m : ℤ) (P : EcpPoint) (n : ℤ)
    (Q : EcpPoint) : Except Err (EcpPoint × Option (ℕ → EcpPoint)) := do
  let (mP, cache) ← mulShortcuts g cache ⟨0, 0, none⟩ m P
  let (R, cache) ← mulShortcuts g cache R n Q
  let R ← addMixed g mP R
  let R ← normalizeJac g R
  .ok (R, cache)

end Coordinates

/-! ## The curves -/

/-- `secp256r1` of `lib/mbedtls/ecp-curves.c`. -/
def secp256r1 : EcpGroup where
  P := 0xFFFFFFFF00000001000000000000000000000000FFFFFFFFFFFFFFFFFFFFFFFF
  A := none
  B := 0x5AC635D8AA3A93E7B3EBBD55769886BC651D06B0CC53B0F63BCE3C3E27D2604B
  G := ⟨0x6B17D1F2E12C4247F8BCE6E563A440F277037D812DEB33A0F4A13945D898C296,
    0x4FE342E2FE1A7F9B8EE7EB4A7C0F9E162BCE33576B315ECECBB6406837BF51F5, some 1⟩
  N := 0xFFFFFFFF00000000FFFFFFFFFFFFFFFFBCE6FAADA7179E84F3B9CAC2FC632551

/-- `secp384r1` -/
def secp384r1 : EcpGroup where
  P := 0xFFFFFFFFFFFFFFFFFFFFFFFFFFFFFFFFFFFFFFFFFFFFFFFFFFFFFFFFFFFFFFFEFFFFFFFF0000000000000000FFFFFFFF
  A := none
  B := 0xB3312FA7E23EE7E4988E056BE3F82D19181D9C6EFE8141120314088F5013875AC656398D8A2ED19D2A85C8EDD3EC2AEF
  G := ⟨0xAA87CA22BE8B05378EB1C71EF320AD746E1D3B628BA79B9859F741E082542A385502F25DBF55296C3A545E3872760AB7,
    0x3617DE4A96262C6F5D9E98BF9292DC29F8F41DBD289A147CE9DA3113B5F0B8C00A60B1CE1D7E819D7A431D7C90EA0E5F,
    some 1⟩
  N := 0xFFFFFFFFFFFFFFFFFFFFFFFFFFFFFFFFFFFFFFFFFFFFFFFFC7634D81F4372DDF581A0DB248B0A77AECEC196ACCC52973

end UBoot.Ecp
