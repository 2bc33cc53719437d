import DefcoinCore.Coins.Cache
import DefcoinCore.Lib.Machine

/-!
# A stack of caches is a plain map

Operations on a stack of `CCoinsViewCache` layers over a base map. Coins are added and spent in the
top layer; every layer can be read, and a layer can be flushed into the one below it. The
specification is a stack of plain maps: adding and spending change the first, reading changes none,
and flushing copies a map over the one below. The stack of caches refines it (`coinsStack_refines`):
nothing is thrown, every read answers from the plain map of its layer, and the flags stay right in
all layers.
-/

namespace DefcoinCore

open CCoinsViewCache CCoinsView List

/-- Operations that any layer may be given. -/
inductive LayerOp where
  | getCoin (outpoint : COutPoint)
  | accessCoin (outpoint : COutPoint)
  | haveCoin (outpoint : COutPoint)
  | haveCoinInCache (outpoint : COutPoint)
  | uncache (outpoint : COutPoint)
  | flush

/-- Operations on a stack; the layers are counted from the top. -/
inductive StackOp where
  | addCoin (outpoint : COutPoint) (coin : Coin) (possible_overwrite : Bool)
  | spendCoin (outpoint : COutPoint)
  | layer (i : Nat) (op : LayerOp)

/-- What an operation returns. -/
inductive StackAnswer where
  | done
  | coin (coin : Option Coin)
  | accessed (coin : Coin)
  | flag (b : Bool)
  | spent (b : Bool) (moveout : Coin)
  deriving DecidableEq

/-- An operation on one cache. -/
def CCoinsViewCache.layerStep (c : CCoinsViewCache) :
    LayerOp → Except CoinsFault (CCoinsViewCache × StackAnswer)
  | .getCoin o => .ok ((c.getCoin o).2, .coin (c.getCoin o).1)
  | .accessCoin o => .ok ((c.accessCoin o).2, .accessed (c.accessCoin o).1)
  | .haveCoin o => .ok ((c.haveCoin o).2, .flag (c.haveCoin o).1)
  | .haveCoinInCache o => .ok (c, .flag (c.haveCoinInCache o))
  | .uncache o => .ok (c.uncache o, .done)
  | .flush => do
    let c ← c.flush
    pure (c, .done)

namespace CCoinsView

/-- An operation on the `i`-th layer. The base map is no layer. -/
def atLayer (op : LayerOp) : Nat → CCoinsView → Except CoinsFault (CCoinsView × StackAnswer)
  | _, base _ => .error (.assertion "no such layer")
  | 0, cache top below => do
    let (c, answer) ← layerStep ⟨top, below⟩ op
    pure (c.toView, answer)
  | i + 1, cache top below => do
    let (below, answer) ← atLayer op i below
    pure (cache top below, answer)

/-- An operation on a stack. -/
def stackStep (v : CCoinsView) : StackOp → Except CoinsFault (CCoinsView × StackAnswer)
  | .addCoin o coin possible_overwrite =>
    match v with
    | base _ => .error (.assertion "no such layer")
    | cache top below => do
      let c ← addCoin ⟨top, below⟩ o coin possible_overwrite
      pure (c.toView, .done)
  | .spendCoin o =>
    match v with
    | base _ => .error (.assertion "no such layer")
    | cache top below =>
      let (b, moveout, c) := spendCoin ⟨top, below⟩ o
      .ok (c.toView, .spent b moveout)
  | .layer i op => v.atLayer op i

/-- `n` empty caches over a base map. -/
def stack (map : BaseMap) : Nat → CCoinsView
  | 0 => base map
  | n + 1 => cache ⟨∅, 0⟩ (stack map n)

end CCoinsView

/-! ## Plain maps -/

/-- The plain map of a layer. -/
def mapAt (maps : List CoinMap) (i : Nat) : CoinMap := maps.getD i fun _ => none

/-- The plain maps after an operation on a layer. -/
def plainLayer (maps : List CoinMap) (i : Nat) : LayerOp → List CoinMap
  | .flush => maps.set (i + 1) (mapAt maps i)
  | _ => maps

/-- What an operation on a layer may return, from the plain map of the layer. -/
def plainAnswer (m : CoinMap) : LayerOp → StackAnswer → Prop
  | .getCoin o, answer => answer = .coin (m o)
  | .accessCoin o, answer => ∃ coin, answer = .accessed coin ∧ coin.unspent? = m o
  | .haveCoin o, answer => answer = .flag (m o).isSome
  | .haveCoinInCache o, answer => ∃ b, answer = .flag b ∧ (b → (m o).isSome)
  | .uncache _, answer => answer = .done
  | .flush, answer => answer = .done

/-- The stack of plain maps. A coin may be added without notice of an overwrite only where the map
has none, and only the layers above the base take operations. -/
def plainStack : Machine.Spec (List CoinMap) StackOp StackAnswer where
  legal maps op :=
    match op with
    | .addCoin o coin possible_overwrite =>
      1 < maps.length ∧ coin.isSpent = false ∧ (possible_overwrite = false → mapAt maps 0 o = none)
    | .spendCoin _ => 1 < maps.length
    | .layer i _ => i + 1 < maps.length
  answer maps op answer :=
    match op with
    | .addCoin _ _ _ => answer = .done
    | .spendCoin o => ∃ b moveout, answer = .spent b moveout ∧ moveout.unspent? = mapAt maps 0 o ∧
        ((mapAt maps 0 o).isSome → b)
    | .layer i op => plainAnswer (mapAt maps i) op answer
  next maps op :=
    match op with
    | .addCoin o coin _ => maps.set 0 (plainAdd (mapAt maps 0) o coin)
    | .spendCoin o => maps.set 0 (Function.update (mapAt maps 0) o none)
    | .layer i op => plainLayer maps i op

/-! ## The refinement -/

/-- One operation on a cache: the coin map of the cache stays, and only a flush changes the levels
below it, of which it changes the first. -/
theorem CCoinsViewCache.layerStep_spec {c : CCoinsViewCache} (hc : c.Valid) (op : LayerOp) :
    ∃ c' answer, c.layerStep op = .ok (c', answer) ∧ plainAnswer c.view op answer ∧ c'.Valid ∧
      c'.toView.views = plainLayer c.toView.views 0 op := by
  have hreads : ∀ c', ReadsOnly c c' → c'.toView.views = c.toView.views := fun c' h =>
    congrArg₂ cons h.view h.base
  cases op with
  | getCoin o =>
    obtain ⟨hcoin, hr⟩ := getCoin_spec hc o
    exact ⟨_, _, rfl, congrArg _ hcoin, hr.valid, hreads _ hr⟩
  | accessCoin o =>
    obtain ⟨hcoin, hr⟩ := accessCoin_spec hc o
    exact ⟨_, _, rfl, ⟨_, rfl, hcoin⟩, hr.valid, hreads _ hr⟩
  | haveCoin o =>
    obtain ⟨hcoin, hr⟩ := haveCoin_spec hc o
    exact ⟨_, _, rfl, congrArg _ hcoin, hr.valid, hreads _ hr⟩
  | haveCoinInCache o => exact ⟨c, _, rfl, ⟨_, rfl, haveCoinInCache_spec⟩, hc, rfl⟩
  | uncache o =>
    have hr := uncache_spec hc o
    exact ⟨_, _, rfl, rfl, hr.valid, hreads _ hr⟩
  | flush =>
    obtain ⟨c', hflush, hvalid, hview, hbase⟩ := flush_spec hc
    refine ⟨c', .done, ?_, rfl, hvalid, ?_⟩
    · rw [layerStep, hflush]
      rfl
    · show c'.view :: c'.base.views = (c.view :: c.base.views).set 1 c.view
      rw [hview, hbase, c.base.views_eq_cons]
      rfl

namespace CCoinsView

theorem mapAt_views_zero (v : CCoinsView) : mapAt v.views 0 = v.view := by
  rw [v.views_eq_cons]
  rfl

theorem length_views_base (map : BaseMap) : (base map).views.length = 1 := rfl

/-- One operation on a layer. The levels above it do not see a difference: the coin map of the level
that they are backed by is the same. -/
theorem atLayer_spec (op : LayerOp) (i : Nat) (v : CCoinsView) (hv : v.Valid)
    (hi : i + 1 < v.views.length) :
    ∃ v' answer, v.atLayer op i = .ok (v', answer) ∧ plainAnswer (mapAt v.views i) op answer ∧
      v'.Valid ∧ v'.views = plainLayer v.views i op := by
  induction v generalizing i with
  | base map =>
    rw [length_views_base] at hi
    omega
  | cache top below ih =>
    cases i with
    | zero =>
      obtain ⟨c', answer, hstep, hanswer, hvalid, hviews⟩ :=
        layerStep_spec (c := ⟨top, below⟩) hv op
      refine ⟨c'.toView, answer, ?_, hanswer, hvalid, hviews⟩
      rw [atLayer, hstep]
      rfl
    | succ i =>
      obtain ⟨htop, hbelow⟩ := hv
      obtain ⟨below', answer, hstep, hanswer, hvalid, hviews⟩ := ih i hbelow
        (by simpa [views] using hi)
      -- A flush of a layer below writes to the level after it, which is not the first.
      have hview : below'.view = below.view := by
        rw [← mapAt_views_zero, ← mapAt_views_zero, hviews]
        cases op <;> simp [plainLayer, mapAt]
      refine ⟨cache top below', answer, ?_, hanswer, ?_, ?_⟩
      · rw [atLayer, hstep]
        rfl
      · exact ⟨hview ▸ htop, hvalid⟩
      · show cacheView top.cacheCoins below'.view :: below'.views = _
        rw [hview, hviews]
        cases op <;> rfl

/-- A stack of caches with right flags stands for its coin maps. -/
def StandsFor (v : CCoinsView) (maps : List CoinMap) : Prop := v.Valid ∧ v.views = maps

/-- Every operation that the plain maps allow is carried out, and answers and acts as on them. -/
theorem stackStep_spec (v : CCoinsView) (maps : List CoinMap) (op : StackOp)
    (hv : v.StandsFor maps) (hop : plainStack.legal maps op) :
    ∃ v' answer, v.stackStep op = .ok (v', answer) ∧ plainStack.answer maps op answer ∧
      v'.StandsFor (plainStack.next maps op) := by
  obtain ⟨hvalid, rfl⟩ := hv
  cases op with
  | addCoin o coin possible_overwrite =>
    obtain ⟨hlen, hcoin, hover⟩ := hop
    cases v with
    | base map => exact absurd hlen (by rw [length_views_base]; decide)
    | cache top below =>
      obtain ⟨c', hadd, hs⟩ :=
        (addCoin_spec (c := ⟨top, below⟩) hvalid hcoin fun h _ => hover h).exists_ok
      refine ⟨c'.toView, .done, ?_, rfl, hs.valid, congrArg₂ cons hs.view hs.base⟩
      rw [stackStep, hadd]
      rfl
  | spendCoin o =>
    cases v with
    | base map =>
      exact absurd hop (by show ¬ 1 < (base map).views.length; rw [length_views_base]; decide)
    | cache top below =>
      obtain ⟨hs, hcoin, hsome⟩ := spendCoin_spec (c := ⟨top, below⟩) hvalid o
      exact ⟨_, _, rfl, ⟨_, _, rfl, hcoin, hsome⟩, hs.valid, congrArg₂ cons hs.view hs.base⟩
  | layer i op => exact atLayer_spec op i v hvalid hop

/-- Empty caches show the base map. -/
theorem stack_standsFor (map : BaseMap) (n : Nat) :
    (stack map n).StandsFor (replicate (n + 1) (baseView map.coins)) := by
  induction n with
  | zero => exact ⟨trivial, rfl⟩
  | succ n ih =>
    obtain ⟨hvalid, hviews⟩ := ih
    have hview : (stack map n).view = baseView map.coins := by
      rw [← mapAt_views_zero, hviews]
      rfl
    refine ⟨⟨cacheValid_empty _, hvalid⟩, ?_⟩
    show cacheView ∅ (stack map n).view :: (stack map n).views = _
    rw [cacheView_empty, hview, hviews]
    rfl

end CCoinsView

/-- A stack of any number of caches over any base map is a stack of plain maps: every sequence of
operations that these allow runs without an exception, answers as they do, and leaves the coin map
of every layer equal to its plain map, with the flags right in all layers. -/
theorem coinsStack_refines (map : BaseMap) (n : Nat) (ops : List StackOp)
    (hops : plainStack.Legal (replicate (n + 1) (baseView map.coins)) ops) :
    ∃ v answers, Machine.trace stackStep (stack map n) ops = .ok (v, answers) ∧
      plainStack.Answers (replicate (n + 1) (baseView map.coins)) ops answers ∧ v.Valid ∧
      v.views = plainStack.final (replicate (n + 1) (baseView map.coins)) ops :=
  Machine.trace_refines stackStep_spec ops (stack map n) _ (stack_standsFor map n) hops

/-- A coin that is added to the upper of two layers, flushed, spent and asked for. -/
def sampleOps : List StackOp :=
  [.addCoin ⟨1, 0⟩ sampleCoin false, .layer 0 .flush, .spendCoin ⟨1, 0⟩, .layer 0 (.getCoin ⟨1, 0⟩),
    .layer 1 (.getCoin ⟨1, 0⟩)]

/-- Three layers over an empty base. -/
theorem coinsStack_refines_sampleOps :
    ∃ v answers, Machine.trace stackStep (stack ⟨∅, 0⟩ 2) sampleOps =
        .ok (v, answers) ∧
      plainStack.Answers (replicate 3 (baseView ∅)) sampleOps answers ∧ v.Valid ∧
      v.views = plainStack.final (replicate 3 (baseView ∅)) sampleOps := by
  have hnone : baseView ∅ ⟨1, 0⟩ = none := by simp [baseView]
  refine coinsStack_refines ⟨∅, 0⟩ 2 sampleOps ⟨⟨by decide, by decide, fun _ => hnone⟩, ?_⟩
  refine ⟨?_, ?_, ?_, ?_, trivial⟩ <;> simp [plainStack, plainLayer]

end DefcoinCore
