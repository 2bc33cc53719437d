import DefcoinCore.Coins.Coin
import DefcoinCore.Lib.Containers
import DefcoinCore.Lib.Ensures

/-!
# The cache of coins

`CCoinsViewCache` of `coins.cpp`: a view on the coins that keeps changes in memory over another
view, which can be a cache again. A `CCoinsView` is such a stack of caches over a base map. The
functions return the view after the call, since reading through a cache fills the caches below it.

What a view is for is its coin map (`CCoinsView.view`): the unspent coin at each outpoint. `Valid`
is the invariant that makes the flags of a cache entry mean what their comments say: a fresh entry
has no unspent coin below it, and an entry that is not dirty agrees with the view below. Each
operation keeps the invariant and acts on the coin map as it would on a plain map (`addCoin_spec`,
`spendCoin_spec`, `flush_spec`), and reading leaves the coin map alone (`getCoin_spec`).
-/

namespace DefcoinCore

open Std Function StdMap Bool Option Coin

/-- What stops the program: an exception for a misuse of the cache, or an assertion. -/
inductive CoinsFault where
  | logicError (what : String)
  | assertion (what : String)
  deriving DecidableEq

/-- `CCoinsCacheEntry`: a coin in one level of the caches, with its two flags. -/
structure CCoinsCacheEntry where
  coin : Coin := .empty
  /-- `DIRTY`: the coin may differ from the version in the parent. -/
  dirty : Bool := false
  /-- `FRESH`: the parent does not have this coin, or has it as spent. -/
  fresh : Bool := false
  deriving DecidableEq

/-- `CCoinsMap`. -/
abbrev CCoinsMap := StdMap COutPoint CCoinsCacheEntry

/-- The view at the bottom of a stack: a map of coins and the block it stands for. -/
structure BaseMap where
  coins : StdMap COutPoint Coin
  hashBestBlock : Uint256

/-- The data of one cache. -/
structure CacheLayer where
  cacheCoins : CCoinsMap
  hashBlock : Uint256

/-- A `CCoinsView`: caches over a base map. -/
inductive CCoinsView where
  | base (map : BaseMap)
  | cache (top : CacheLayer) (below : CCoinsView)

/-- A `CCoinsViewCache`: a view that is a cache, with the view it is backed by. -/
structure CCoinsViewCache where
  top : CacheLayer
  base : CCoinsView

variable (c : CCoinsViewCache)

/-- A cache as a view. -/
def CCoinsViewCache.toView : CCoinsView := .cache c.top c.base

/-! ## Reading -/

/-- `FetchCoin`, given what `base->GetCoin` returns and leaves behind: the entry of the cache,
filled from the parent when there was none. -/
def CacheLayer.fetch (top : CacheLayer) (below : CCoinsView) (outpoint : COutPoint)
    (fromBase : Option Coin × CCoinsView) : Option CCoinsCacheEntry × CacheLayer × CCoinsView :=
  match top.cacheCoins[outpoint]? with
  | some entry => (some entry, top, below)
  | none =>
    match fromBase with
    | (none, below') => (none, top, below')
    | (some tmp, below') =>
      -- The parent may have an empty entry; then our version can be taken as fresh.
      let entry : CCoinsCacheEntry := { coin := tmp, fresh := tmp.isSpent }
      (some entry, { top with cacheCoins := top.cacheCoins.insert outpoint entry }, below')

namespace CCoinsView

/-- `GetCoin`: `none` when it returns false. A base map gives the coin it holds. -/
def getCoin : CCoinsView → COutPoint → Option Coin × CCoinsView
  | base map, outpoint => (map.coins[outpoint]?, base map)
  | cache top below, outpoint =>
    let (it, top', below') := top.fetch below outpoint (below.getCoin outpoint)
    (it.bind fun entry => entry.coin.unspent?, cache top' below')

/-- `GetBestBlock`; a cache that does not know its block takes that of its parent. -/
def getBestBlock : CCoinsView → Uint256 × CCoinsView
  | base map => (map.hashBestBlock, base map)
  | cache top below =>
    if top.hashBlock = 0 then
      let (hash, below') := below.getBestBlock
      (hash, cache { top with hashBlock := hash } below')
    else (top.hashBlock, cache top below)

end CCoinsView

namespace CCoinsViewCache

variable (c : CCoinsViewCache) (outpoint : COutPoint)

/-- `FetchCoin`. -/
def fetchCoin : Option CCoinsCacheEntry × CCoinsViewCache :=
  let (it, top, base) := c.top.fetch c.base outpoint (c.base.getCoin outpoint)
  (it, ⟨top, base⟩)

/-- `CCoinsViewCache::GetCoin`. -/
def getCoin : Option Coin × CCoinsViewCache :=
  let (it, c) := c.fetchCoin outpoint
  (it.bind fun entry => entry.coin.unspent?, c)

/-- `AccessCoin`: the cached coin, or the empty one. -/
def accessCoin : Coin × CCoinsViewCache :=
  let (it, c) := c.fetchCoin outpoint
  ((it.map (·.coin)).getD .empty, c)

/-- `HaveCoin` on an outpoint. -/
def haveCoin : Bool × CCoinsViewCache :=
  let (it, c) := c.fetchCoin outpoint
  (it.any fun entry => !entry.coin.isSpent, c)

/-- `HaveCoinInCache` on an outpoint. -/
def haveCoinInCache : Bool :=
  c.top.cacheCoins[outpoint]?.any fun entry => !entry.coin.isSpent

/-! ## Writing -/

/-- The entry that `AddCoin` leaves where `entry` was. -/
def addedEntry (entry : CCoinsCacheEntry) (coin : Coin) (possible_overwrite : Bool) :
    Except CoinsFault CCoinsCacheEntry :=
  if !possible_overwrite ∧ !entry.coin.isSpent then
    .error (.logicError "Attempted to overwrite an unspent coin (when possible_overwrite is false)")
  else
    -- A spent coin that is dirty has not reached the parent yet, so it cannot become fresh.
    .ok { coin, dirty := true, fresh := entry.fresh || (!possible_overwrite && !entry.dirty) }

/-- `AddCoin`. -/
def addCoin (coin : Coin) (possible_overwrite : Bool) : Except CoinsFault CCoinsViewCache :=
  if coin.isSpent then .error (.assertion "!coin.IsSpent()")
  else if isUnspendable coin.out.scriptPubKey then .ok c
  else do
    let entry ← addedEntry (c.top.cacheCoins[outpoint]?.getD {}) coin possible_overwrite
    pure { c with top := { c.top with cacheCoins := c.top.cacheCoins.insert outpoint entry } }

/-- `SpendCoin`: whether an entry was found, the coin that is moved out, and the cache. -/
def spendCoin : Bool × Coin × CCoinsViewCache :=
  match c.fetchCoin outpoint with
  | (none, c) => (false, .empty, c)
  | (some entry, c) =>
    let cacheCoins :=
      if entry.fresh then c.top.cacheCoins.erase outpoint
      else c.top.cacheCoins.insert outpoint { entry with coin := .empty, dirty := true }
    (true, entry.coin, { c with top := { c.top with cacheCoins } })

/-- `SetBestBlock`. -/
def setBestBlock (hashBlockIn : Uint256) : CCoinsViewCache :=
  { c with top := { c.top with hashBlock := hashBlockIn } }

/-- `Uncache` on an outpoint. -/
def uncache : CCoinsViewCache :=
  match c.top.cacheCoins[outpoint]? with
  | some entry =>
    if !entry.dirty ∧ !entry.fresh then
      { c with top := { c.top with cacheCoins := c.top.cacheCoins.erase outpoint } }
    else c
  | none => c

end CCoinsViewCache

/-- `CCoinsViewCache::BatchWrite` for one entry of the child, with the entries of this cache. -/
def mergeEntry (us : CCoinsMap) (it : COutPoint × CCoinsCacheEntry) : Except CoinsFault CCoinsMap :=
  if !it.2.dirty then .ok us
  else
    match us[it.1]? with
    | none =>
      -- An entry that is both spent and fresh in the child can be ignored.
      if it.2.fresh ∧ it.2.coin.isSpent then .ok us
      else .ok (us.insert it.1 { coin := it.2.coin, dirty := true, fresh := it.2.fresh })
    | some entry =>
      if it.2.fresh ∧ !entry.coin.isSpent then
        .error (.logicError "FRESH flag misapplied to coin that exists in parent cache")
      else if entry.fresh ∧ it.2.coin.isSpent then
        -- The grandparent does not have the coin, and it has been spent.
        .ok (us.erase it.1)
      else .ok (us.insert it.1 { entry with coin := it.2.coin, dirty := true })

variable (coins : StdMap COutPoint Coin)

/-- The write of one entry to a base map. -/
def writeEntry (it : COutPoint × CCoinsCacheEntry) : Except CoinsFault (StdMap COutPoint Coin) :=
  if it.2.dirty then
    .ok (if it.2.coin.isSpent then coins.erase it.1 else coins.insert it.1 it.2.coin)
  else .ok coins

/-- `BatchWrite`. The order of the entries is that of the outpoints; no entry touches another. -/
def CCoinsView.batchWrite (view : CCoinsView) (mapCoins : CCoinsMap) (hashBlockIn : Uint256) :
    Except CoinsFault CCoinsView :=
  match view with
  | .base map => do
    let coins ← mapCoins.toList.foldlM writeEntry map.coins
    pure (.base ⟨coins, hashBlockIn⟩)
  | .cache top below => do
    let cacheCoins ← mapCoins.toList.foldlM mergeEntry top.cacheCoins
    pure (.cache ⟨cacheCoins, hashBlockIn⟩ below)

/-- `Flush`. -/
def CCoinsViewCache.flush : Except CoinsFault CCoinsViewCache := do
  let base ← c.base.batchWrite c.top.cacheCoins c.top.hashBlock
  pure ⟨{ c.top with cacheCoins := ∅ }, base⟩

/-! ## The coin map of a view -/

/-- A plain map of unspent coins. -/
abbrev CoinMap := COutPoint → Option Coin

/-- The coin map of a cache over a parent with a given coin map. -/
def cacheView (cacheCoins : CCoinsMap) (parent : CoinMap) : CoinMap := fun outpoint =>
  match cacheCoins[outpoint]? with
  | some entry => entry.coin.unspent?
  | none => parent outpoint

/-- The coin map of a base map. -/
def baseView : CoinMap := fun outpoint =>
  coins[outpoint]?.bind unspent?

/-- The unspent coins of a view. -/
def CCoinsView.view : CCoinsView → CoinMap
  | base map => baseView map.coins
  | cache top below => cacheView top.cacheCoins below.view

/-- The coin maps of all levels of a view, from the top to the base. -/
def CCoinsView.views : CCoinsView → List CoinMap
  | base map => [baseView map.coins]
  | cache top below => cacheView top.cacheCoins below.view :: below.views

/-- The unspent coins of a cache. -/
def CCoinsViewCache.view : CoinMap := cacheView c.top.cacheCoins c.base.view

/-- A plain map with a coin added; coins with unspendable scripts are ignored. -/
def plainAdd (m : CoinMap) (outpoint : COutPoint) (coin : Coin) : CoinMap :=
  if isUnspendable coin.out.scriptPubKey then m else Function.update m outpoint (some coin)

/-- What the flags of an entry promise about the parent. -/
structure EntryValid (entry : CCoinsCacheEntry) (parent : Option Coin) : Prop where
  fresh : entry.fresh → parent = none
  clean : entry.dirty = false → entry.coin.unspent? = parent

/-- The flags of all entries are right. -/
def CacheValid (cacheCoins : CCoinsMap) (parent : CoinMap) : Prop :=
  ∀ outpoint entry, cacheCoins[outpoint]? = some entry → EntryValid entry (parent outpoint)

/-- The flags are right in every cache of a view. -/
def CCoinsView.Valid : CCoinsView → Prop
  | base _ => True
  | cache top below => CacheValid top.cacheCoins below.view ∧ below.Valid

/-- The flags are right in a cache and below it. -/
def CCoinsViewCache.Valid : Prop :=
  CacheValid c.top.cacheCoins c.base.view ∧ c.base.Valid

variable {cacheCoins : CCoinsMap} {parent : CoinMap} {o : COutPoint}

theorem CCoinsView.views_eq_cons (v : CCoinsView) : v.views = v.view :: v.views.tail := by
  cases v <;> rfl

/-- The coin map of a view is the first of its levels. -/
theorem CCoinsView.view_eq_of_views {v w : CCoinsView} (h : v.views = w.views) :
    v.view = w.view := by
  rw [v.views_eq_cons, w.views_eq_cons, List.cons.injEq] at h
  exact h.1

theorem cacheView_of_some {entry : CCoinsCacheEntry} (h : cacheCoins[o]? = some entry) :
    cacheView cacheCoins parent o = entry.coin.unspent? := by
  rw [cacheView, h]

theorem cacheView_of_none (h : cacheCoins[o]? = none) :
    cacheView cacheCoins parent o = parent o := by
  rw [cacheView, h]

/-- Setting an entry changes the coin map at its outpoint. -/
theorem cacheView_insert (cacheCoins : CCoinsMap) (parent : CoinMap) (o : COutPoint)
    (entry : CCoinsCacheEntry) : cacheView (cacheCoins.insert o entry) parent =
      update (cacheView cacheCoins parent) o entry.coin.unspent? := by
  funext a
  by_cases ha : a = o
  · subst ha
    rw [update_self, cacheView_of_some (by rw [getElem?_insert, if_pos rfl])]
  · rw [update_of_ne ha, cacheView, cacheView, getElem?_insert, if_neg (Ne.symm ha)]

/-- Erasing an entry shows the parent at its outpoint. -/
theorem cacheView_erase (cacheCoins : CCoinsMap) (parent : CoinMap) (o : COutPoint) :
    cacheView (cacheCoins.erase o) parent = update (cacheView cacheCoins parent) o (parent o) := by
  funext a
  by_cases ha : a = o
  · subst ha
    rw [update_self, cacheView_of_none (by rw [getElem?_erase, if_pos rfl])]
  · rw [update_of_ne ha, cacheView, cacheView, getElem?_erase, if_neg (Ne.symm ha)]

theorem CacheValid.insert (h : CacheValid cacheCoins parent) {entry : CCoinsCacheEntry}
    (hentry : EntryValid entry (parent o)) : CacheValid (cacheCoins.insert o entry) parent := by
  intro a e ha
  rw [getElem?_insert] at ha
  split_ifs at ha with hoa
  · subst hoa
    rw [← some.inj ha]
    exact hentry
  · exact h a e ha

theorem CacheValid.erase (h : CacheValid cacheCoins parent) (o : COutPoint) :
    CacheValid (cacheCoins.erase o) parent := by
  intro a e ha
  rw [getElem?_erase] at ha
  split_ifs at ha with hoa
  exact h a e ha

theorem cacheValid_empty (parent : CoinMap) : CacheValid ∅ parent := by
  intro a e ha
  exact absurd ha (by simp)

theorem cacheView_empty (parent : CoinMap) : cacheView ∅ parent = parent := by
  funext a
  exact cacheView_of_none ExtTreeMap.getElem?_empty

/-! ## Reading leaves the coin map alone -/

/-- A call that reads: it leaves the coin maps of the cache and of all levels below it alone. -/
structure CCoinsViewCache.ReadsOnly (c c' : CCoinsViewCache) : Prop where
  base : c'.base.views = c.base.views
  view : c'.view = c.view
  valid : c'.Valid

/-- What `FetchCoin` returns and leaves behind: the entry that the cache then holds, with the coin
of the coin map. -/
structure Fetched (c : CCoinsViewCache) (o : COutPoint) (it : Option CCoinsCacheEntry)
    (c' : CCoinsViewCache) : Prop extends c.ReadsOnly c' where
  coin : (it.bind fun entry => entry.coin.unspent?) = c.view o
  entry : c'.top.cacheCoins[o]? = it

/-- `FetchCoin`, from what is known of `base->GetCoin`. -/
theorem CacheLayer.fetch_spec {top : CacheLayer} {below : CCoinsView} {r : Option Coin × CCoinsView}
    (htop : CacheValid top.cacheCoins below.view) (hbelow : below.Valid)
    (hcoin : r.1.bind unspent? = below.view o) (hviews : r.2.views = below.views)
    (hvalid : r.2.Valid) :
    Fetched ⟨top, below⟩ o (top.fetch below o r).1
      ⟨(top.fetch below o r).2.1, (top.fetch below o r).2.2⟩ := by
  obtain ⟨fromBase, below'⟩ := r
  have hview := CCoinsView.view_eq_of_views hviews
  unfold CacheLayer.fetch
  rcases ho : top.cacheCoins[o]? with _ | entry
  · have hview_o : cacheView top.cacheCoins below.view o = below.view o := cacheView_of_none ho
    rcases fromBase with _ | tmp
    · refine ⟨⟨hviews, ?_, ?_, hvalid⟩, hcoin.trans hview_o.symm, ho⟩
      · unfold CCoinsViewCache.view
        rw [hview]
      · rw [hview]
        exact htop
    · rw [bind_some] at hcoin
      have hentry : EntryValid { coin := tmp, fresh := tmp.isSpent } (below.view o) := by
        refine ⟨fun hfresh => ?_, fun _ => hcoin⟩
        rw [← hcoin]
        exact unspent?_of_isSpent hfresh
      refine ⟨⟨hviews, ?_, ?_, hvalid⟩, hcoin.trans hview_o.symm, ?_⟩
      · unfold CCoinsViewCache.view
        rw [hview, cacheView_insert, hcoin, ← hview_o, update_eq_self]
      · rw [hview]
        exact htop.insert hentry
      · rw [getElem?_insert, if_pos rfl]
  · exact ⟨⟨rfl, rfl, htop, hbelow⟩, (cacheView_of_some ho).symm, ho⟩

/-- `GetCoin` returns the coin of the coin map and leaves the map as it was. -/
theorem CCoinsView.getCoin_spec (v : CCoinsView) (o : COutPoint) (hv : v.Valid) :
    (v.getCoin o).1.bind unspent? = v.view o ∧ (v.getCoin o).2.views = v.views ∧
      (v.getCoin o).2.Valid := by
  induction v with
  | base map => exact ⟨rfl, rfl, trivial⟩
  | cache top below ih =>
    obtain ⟨htop, hbelow⟩ := hv
    obtain ⟨hcoin, hviews, hvalid⟩ := ih hbelow
    have hf := CacheLayer.fetch_spec htop hbelow hcoin hviews hvalid
    refine ⟨?_, congrArg₂ List.cons hf.view hf.base, hf.valid⟩
    refine Eq.trans ?_ hf.coin
    rw [CCoinsView.getCoin]
    dsimp only
    rcases (top.fetch below o (below.getCoin o)).1 with _ | entry
    · rfl
    · dsimp only [bind_some]
      unfold unspent?
      split_ifs with hs
      · rfl
      · rw [bind_some, if_neg hs]

namespace CCoinsViewCache

variable {c : CCoinsViewCache} {o : COutPoint} {coin : Coin}

theorem fetchCoin_spec (hc : c.Valid) (o : COutPoint) :
    Fetched c o (c.fetchCoin o).1 (c.fetchCoin o).2 := by
  obtain ⟨hcoin, hviews, hvalid⟩ := c.base.getCoin_spec o hc.2
  exact CacheLayer.fetch_spec hc.1 hc.2 hcoin hviews hvalid

theorem getCoin_spec (hc : c.Valid) (o : COutPoint) :
    (c.getCoin o).1 = c.view o ∧ ReadsOnly c (c.getCoin o).2 :=
  ⟨(fetchCoin_spec hc o).coin, (fetchCoin_spec hc o).toReadsOnly⟩

/-- `AccessCoin` returns the coin of the coin map, or a spent coin. -/
theorem accessCoin_spec (hc : c.Valid) (o : COutPoint) :
    (c.accessCoin o).1.unspent? = c.view o ∧ ReadsOnly c (c.accessCoin o).2 := by
  have hf := fetchCoin_spec hc o
  refine ⟨?_, hf.toReadsOnly⟩
  rw [← hf.coin]
  unfold accessCoin
  dsimp only
  cases (c.fetchCoin o).1 <;> rfl

theorem haveCoin_spec (hc : c.Valid) (o : COutPoint) :
    (c.haveCoin o).1 = (c.view o).isSome ∧ ReadsOnly c (c.haveCoin o).2 := by
  have hf := fetchCoin_spec hc o
  refine ⟨?_, hf.toReadsOnly⟩
  rw [← hf.coin]
  unfold haveCoin
  dsimp only
  rcases (c.fetchCoin o).1 with _ | entry
  · rfl
  · rw [any_some, bind_some]
    unfold unspent?
    cases entry.coin.isSpent <;> rfl

/-- A coin in the cache is in the coin map. -/
theorem haveCoinInCache_spec (h : c.haveCoinInCache o) : (c.view o).isSome := by
  unfold haveCoinInCache at h
  rcases ho : c.top.cacheCoins[o]? with _ | entry
  · simp [ho] at h
  · rw [ho, any_some, not_eq_true'] at h
    rw [view, cacheView_of_some ho, unspent?_of_not_isSpent h]
    rfl

/-- `Uncache` drops an entry that its parent agrees with. -/
theorem uncache_spec (hc : c.Valid) (o : COutPoint) : ReadsOnly c (c.uncache o) := by
  unfold uncache
  rcases ho : c.top.cacheCoins[o]? with _ | entry
  · exact ⟨rfl, rfl, hc⟩
  · dsimp only
    split_ifs with hflags
    · have hclean := (hc.1 o entry ho).clean (by simpa using hflags.1)
      refine ⟨rfl, ?_, hc.1.erase o, hc.2⟩
      unfold view
      rw [cacheView_erase, ← hclean, ← cacheView_of_some ho, update_eq_self]
    · exact ⟨rfl, rfl, hc⟩

/-! ## Writing acts on the coin map as on a plain map -/

/-- A call that writes: the cache then shows the coin map `V`, and the levels below it are as
before. -/
structure Shows (c : CCoinsViewCache) (V : CoinMap) (c' : CCoinsViewCache) : Prop where
  base : c'.base.views = c.base.views
  view : c'.view = V
  valid : c'.Valid

theorem Shows.refl (hc : c.Valid) : Shows c c.view c := ⟨rfl, rfl, hc⟩

theorem Shows.trans {c' c'' : CCoinsViewCache} {V V' : CoinMap} (h : Shows c V c')
    (h' : Shows c' V' c'') : Shows c V' c'' :=
  ⟨h'.base.trans h.base, h'.view, h'.valid⟩

theorem ReadsOnly.shows {c' : CCoinsViewCache} (h : ReadsOnly c c') : Shows c c.view c' :=
  ⟨h.base, h.view, h.valid⟩

/-- The entry that `AddCoin` leaves is right when no unspent coin is overwritten without notice. -/
theorem addedEntry_spec {entry : CCoinsCacheEntry} {parent : Option Coin}
    {possible_overwrite : Bool} (hfresh : entry.fresh → parent = none)
    (hover : possible_overwrite = false → entry.coin.isSpent ∧
      (entry.dirty = false → parent = none)) :
    ∃ entry', addedEntry entry coin possible_overwrite = .ok entry' ∧ entry'.coin = coin ∧
      EntryValid entry' parent := by
  unfold addedEntry
  rw [if_neg (by
    rintro ⟨h1, h2⟩
    rw [(hover (by simpa using h1)).1] at h2
    exact absurd h2 (by decide))]
  refine ⟨_, rfl, rfl, ?_, fun h => Bool.noConfusion h⟩
  intro h
  rw [or_eq_true, and_eq_true, not_eq_true', not_eq_true'] at h
  exact h.elim hfresh fun h => (hover h.1).2 h.2

/-- `AddCoin` sets the coin, unless its script is unspendable. -/
theorem addCoin_spec (hc : c.Valid) {possible_overwrite : Bool} (hcoin : coin.isSpent = false)
    (hover : possible_overwrite = false → isUnspendable coin.out.scriptPubKey = false →
      c.view o = none) :
    Returns (c.addCoin o coin possible_overwrite) (Shows c (plainAdd c.view o coin)) := by
  unfold addCoin plainAdd
  rw [if_neg (by rw [hcoin]; decide)]
  split_ifs with hscript
  · exact Shows.refl hc
  · replace hover : possible_overwrite = false → c.view o = none := fun h =>
      hover h (by simpa using hscript)
    obtain ⟨entry', hadd, hcoin', hvalid'⟩ : ∃ entry',
        addedEntry (c.top.cacheCoins[o]?.getD {}) coin possible_overwrite = .ok entry' ∧
        entry'.coin = coin ∧ EntryValid entry' (c.base.view o) := by
      rcases ho : c.top.cacheCoins[o]? with _ | entry
      · -- A missing entry is an empty one: it is spent, and the parent is all that is seen.
        have hparent : c.view o = c.base.view o := cacheView_of_none ho
        rw [hparent] at hover
        exact addedEntry_spec (fun h => Bool.noConfusion h) fun hp => ⟨rfl, fun _ => hover hp⟩
      · have hentry := hc.1 o entry ho
        have hcache : c.view o = entry.coin.unspent? := cacheView_of_some ho
        rw [hcache] at hover
        exact addedEntry_spec hentry.fresh fun hp => ⟨isSpent_of_unspent? (hover hp),
          fun hclean => (hentry.clean hclean).symm.trans (hover hp)⟩
    rw [hadd]
    refine ⟨rfl, ?_, hc.1.insert hvalid', hc.2⟩
    unfold view
    rw [cacheView_insert, hcoin', unspent?_of_not_isSpent hcoin]

/-- `SpendCoin` removes the coin. It returns true and moves the coin out when there is one;
otherwise it moves out a spent coin, or leaves the empty one. -/
theorem spendCoin_spec (hc : c.Valid) (o : COutPoint) :
    Shows c (update c.view o none) (c.spendCoin o).2.2 ∧ (c.spendCoin o).2.1.unspent? = c.view o ∧
      ((c.view o).isSome → (c.spendCoin o).1) := by
  have hf := fetchCoin_spec hc o
  unfold spendCoin
  rcases hfetch : c.fetchCoin o with ⟨_ | entry, c'⟩
  · rw [hfetch] at hf
    have hnone : c.view o = none := hf.coin.symm
    refine ⟨⟨hf.base, ?_, hf.valid⟩, ?_, ?_⟩
    · rw [hf.view, ← hnone, update_eq_self]
    · rw [hnone]; rfl
    · rw [hnone]
      intro h
      exact absurd h (by simp)
  · rw [hfetch] at hf
    have hcoin : entry.coin.unspent? = c.view o := hf.coin
    have hentry := hf.valid.1 o entry hf.entry
    refine ⟨⟨hf.base, ?_, ?_⟩, hcoin, fun _ => rfl⟩
    · rw [← hf.view]
      unfold view
      dsimp only
      split_ifs with hfresh
      · rw [cacheView_erase, hentry.fresh hfresh]
      · rw [cacheView_insert, unspent?_empty]
    · dsimp only
      split_ifs with hfresh
      · exact ⟨hf.valid.1.erase o, hf.valid.2⟩
      · refine ⟨hf.valid.1.insert ⟨fun h => absurd h hfresh, fun h => Bool.noConfusion h⟩,
          hf.valid.2⟩

/-- The coin that `SpendCoin` moves out. -/
theorem spendCoin_of_some (hc : c.Valid) (h : c.view o = some coin) :
    (c.spendCoin o).1 ∧ (c.spendCoin o).2.1 = coin := by
  obtain ⟨-, hcoin, htrue⟩ := spendCoin_spec hc o
  rw [h] at hcoin htrue
  exact ⟨htrue rfl, (unspent?_eq_some hcoin).1⟩

end CCoinsViewCache

/-! ## Writing a cache to its parent -/

/-- A loop over the entries of a child. Each step sets the coin map of the target at its entry's
outpoint to the entry's coin; then the target has the coin map that the child had. -/
theorem foldlM_cache {σ : Type} {f : σ → COutPoint × CCoinsCacheEntry → Except CoinsFault σ}
    {view : σ → CoinMap} {inv : σ → Prop}
    (hstep : ∀ s it, inv s → EntryValid it.2 (view s it.1) → ∃ s', f s it = .ok s' ∧ inv s' ∧
      view s' = update (view s) it.1 it.2.coin.unspent?)
    {s : σ} (hs : inv s) (hvalid : CacheValid cacheCoins (view s)) :
    ∃ s', cacheCoins.toList.foldlM f s = .ok s' ∧ inv s' ∧
      view s' = cacheView cacheCoins (view s) := by
  obtain ⟨s', hfold, hs', hview⟩ := foldlM_toList view inv (fun coin entry => EntryValid entry coin)
    (fun _ entry => entry.coin.unspent?) hstep cacheCoins hs hvalid
  refine ⟨s', hfold, hs', funext fun o => ?_⟩
  rw [hview o]
  cases ho : cacheCoins[o]? with
  | none => exact (cacheView_of_none ho).symm
  | some entry => exact (cacheView_of_some ho).symm

/-- `BatchWrite` into a cache, for one entry whose flags are right: no exception, the flags of the
parent stay right, and the parent then has the coin of the child. -/
theorem mergeEntry_spec {grandparent : CoinMap} (us : CCoinsMap)
    (it : COutPoint × CCoinsCacheEntry) (hus : CacheValid us grandparent)
    (hit : EntryValid it.2 (cacheView us grandparent it.1)) :
    ∃ us', mergeEntry us it = .ok us' ∧ CacheValid us' grandparent ∧
      cacheView us' grandparent = update (cacheView us grandparent) it.1 it.2.coin.unspent? := by
  obtain ⟨o, e⟩ := it
  unfold mergeEntry
  cases hdirty : e.dirty with
  | false =>
    -- An entry that is not dirty agrees with the parent already.
    exact ⟨us, rfl, hus, by rw [hit.clean hdirty, update_eq_self]⟩
  | true =>
    rw [if_neg (by decide)]
    rcases ho : us[o]? with _ | entry
    · have hparent : cacheView us grandparent o = grandparent o := cacheView_of_none ho
      rw [hparent] at hit
      split_ifs with hskip
      · refine ⟨us, rfl, hus, ?_⟩
        rw [unspent?_of_isSpent hskip.2, ← hit.fresh hskip.1, ← hparent, update_eq_self]
      · exact ⟨_, rfl, hus.insert ⟨hit.fresh, fun h => Bool.noConfusion h⟩, cacheView_insert ..⟩
    · have hparent : cacheView us grandparent o = entry.coin.unspent? := cacheView_of_some ho
      rw [hparent] at hit
      have hentry := hus o entry ho
      dsimp only
      rw [if_neg (by
        rintro ⟨hfresh, hunspent⟩
        rw [isSpent_of_unspent? (hit.fresh hfresh)] at hunspent
        exact absurd hunspent (by decide))]
      split_ifs with herase
      · refine ⟨_, rfl, hus.erase o, ?_⟩
        rw [cacheView_erase, hentry.fresh herase.1, unspent?_of_isSpent herase.2]
      · exact ⟨_, rfl, hus.insert ⟨hentry.fresh, fun h => Bool.noConfusion h⟩, cacheView_insert ..⟩

/-- The write of one entry to a base map. -/
theorem writeEntry_spec (it : COutPoint × CCoinsCacheEntry)
    (hit : EntryValid it.2 (baseView coins it.1)) :
    ∃ coins', writeEntry coins it = .ok coins' ∧ True ∧
      baseView coins' = update (baseView coins) it.1 it.2.coin.unspent? := by
  obtain ⟨o, e⟩ := it
  unfold writeEntry
  cases hdirty : e.dirty with
  | false =>
    exact ⟨coins, rfl, trivial, by rw [hit.clean hdirty, update_eq_self]⟩
  | true =>
    refine ⟨_, rfl, trivial, ?_⟩
    funext a
    unfold baseView
    by_cases ha : a = o
    · subst ha
      rw [update_self]
      split_ifs with hspent
      · rw [getElem?_erase, if_pos rfl, unspent?_of_isSpent hspent]
        rfl
      · rw [getElem?_insert, if_pos rfl]
        rfl
    · rw [update_of_ne ha]
      split_ifs with hspent
      · rw [getElem?_erase, if_neg (Ne.symm ha)]
      · rw [getElem?_insert, if_neg (Ne.symm ha)]

/-- `BatchWrite` of a cache whose flags are right gives its coin map to the parent. -/
theorem CCoinsView.batchWrite_spec {v : CCoinsView} (hv : v.Valid)
    (hvalid : CacheValid cacheCoins v.view) (hashBlockIn : Uint256) :
    ∃ v', v.batchWrite cacheCoins hashBlockIn = .ok v' ∧ v'.Valid ∧
      v'.views = cacheView cacheCoins v.view :: v.views.tail := by
  cases v with
  | base map =>
    obtain ⟨coins', hfold, -, hview⟩ := foldlM_cache
      (fun coins it (_ : True) hit => writeEntry_spec coins it hit) trivial hvalid
    refine ⟨.base ⟨coins', hashBlockIn⟩, ?_, trivial, congrArg (· :: []) hview⟩
    unfold batchWrite
    dsimp only
    rw [hfold]
    rfl
  | cache top below =>
    obtain ⟨htop, hbelow⟩ := hv
    obtain ⟨cacheCoins', hfold, hvalid', hview⟩ :=
      foldlM_cache (fun us it hus hit => mergeEntry_spec us it hus hit) htop hvalid
    refine ⟨.cache ⟨cacheCoins', hashBlockIn⟩ below, ?_, ⟨hvalid', hbelow⟩,
      congrArg (· :: below.views) hview⟩
    unfold batchWrite
    dsimp only
    rw [hfold]
    rfl

/-- `Flush` gives the coin map of the cache to its base and keeps it. -/
theorem CCoinsViewCache.flush_spec {c : CCoinsViewCache} (hc : c.Valid) :
    ∃ c', c.flush = .ok c' ∧ c'.Valid ∧ c'.view = c.view ∧
      c'.base.views = c.view :: c.base.views.tail := by
  obtain ⟨base', hwrite, hbase', hviews⟩ := c.base.batchWrite_spec hc.2 hc.1 c.top.hashBlock
  refine ⟨⟨{ c.top with cacheCoins := ∅ }, base'⟩, ?_, ⟨cacheValid_empty _, hbase'⟩, ?_, hviews⟩
  · unfold flush
    rw [hwrite]
    rfl
  · unfold view
    rw [base'.views_eq_cons, List.cons.injEq] at hviews
    rw [cacheView_empty, hviews.1]

end DefcoinCore
