import WjkIndexer.Database.Tables
import WjkIndexer.Library.Machine

/-!
The in-memory index of holders: for each tick the non-zero holdings with their
addresses, and a counter of them.
-/

namespace WjkIndexer

open FiniteTable

structure SortedByBalance where
  balance : Nat
  address : FullHash
  deriving DecidableEq, Repr

structure Holders where
  balances : Table OriginalTokenTick (Finset SortedByBalance) := ∅
  stats : Table OriginalTokenTick Nat := ∅

inductive HoldersAction where
  | increase
  | decrease
  deriving DecidableEq, Repr

/-- `x - 1` of an unsigned 64-bit counter in a release build. -/
def usizePred (count : Nat) : Nat := if count = 0 then 2 ^ 64 - 1 else count - 1

namespace Holders

/-- The entries of one tick in the database table. -/
def entriesOf (accounts : Table AddressToken TokenBalance) (tick : OriginalTokenTick) :
    Finset SortedByBalance :=
  (accounts.keys.filter fun key =>
      key.token = tick ∧ ((accounts.get key).getD {}).held ≠ 0).image fun key =>
    ⟨((accounts.get key).getD {}).held, key.address⟩

/-- The index built from the stored accounts, with an entry for each tick that has a holder. -/
def init (accounts : Table AddressToken TokenBalance) : Holders :=
  let ticks := (accounts.keys.image AddressToken.token).filter fun tick =>
    entriesOf accounts tick ≠ ∅
  { balances := .collect ticks fun tick => some (entriesOf accounts tick)
    stats := .collect ticks fun tick => some (entriesOf accounts tick).card }

def entries (holders : Holders) (tick : OriginalTokenTick) : Finset SortedByBalance :=
  (holders.balances.get tick).getD ∅

def count (holders : Holders) (tick : OriginalTokenTick) : Nat :=
  (holders.stats.get tick).getD 0

def change (holders : Holders) (key : AddressToken) (account : TokenBalance) (amt : Nat) :
    HoldersAction → Except Fault Holders
  | .increase => do
      let oldBalance ← addAmount account.balance account.transferableBalance
      let old : SortedByBalance := ⟨oldBalance, key.address⟩
      let rest := (holders.entries key.token).erase old
      let existed := decide (old ∈ holders.entries key.token)
      let newBalance ← addAmount oldBalance amt
      .ok {
        balances := holders.balances.set key.token (insert ⟨newBalance, key.address⟩ rest)
        stats := if existed then holders.stats
          else holders.stats.set key.token (holders.count key.token + 1) }
  | .decrease => do
      let oldBalance ← addAmount account.balance account.transferableBalance
      let old : SortedByBalance := ⟨oldBalance, key.address⟩
      let rest := (holders.entries key.token).erase old
      let bal ← subAmount oldBalance amt
      if bal ≠ 0 then
        .ok { holders with
          balances := holders.balances.set key.token (insert ⟨bal, key.address⟩ rest) }
      else
        .ok {
          balances := holders.balances.set key.token rest
          stats := match holders.stats.get key.token with
            | some count => holders.stats.set key.token (usizePred count)
            | none => holders.stats }

def increase (holders : Holders) (key : AddressToken) (prevBalance : TokenBalance)
    (amt : Nat) : Except Fault Holders :=
  holders.change key prevBalance amt .increase

def decrease (holders : Holders) (key : AddressToken) (prevBalance : TokenBalance)
    (amt : Nat) : Except Fault Holders :=
  holders.change key prevBalance amt .decrease

theorem change_onlyOverflows (holders : Holders) (key : AddressToken) (account : TokenBalance)
    (amt : Nat) (action : HoldersAction) : OnlyOverflows (holders.change key account amt action) := by
  cases action with
  | increase => exact .bind (.addAmount _ _) fun _ => .bind (.addAmount _ _) fun _ => .ok _
  | decrease =>
      refine .bind (.addAmount _ _) fun _ => .bind (.subAmount _ _) fun _ => ?_
      split <;> exact .ok _

theorem change_other {holders changed : Holders} (other : Holders) {key : AddressToken}
    {account : TokenBalance} {amt : Nat} {action : HoldersAction}
    (counted : holders.change key account amt action = .ok changed) :
    ∃ again, other.change key account amt action = .ok again := by
  cases action with
  | increase =>
      simp only [change, Machine.bind_ok] at counted ⊢
      obtain ⟨old, first, new, second, _⟩ := counted
      exact ⟨_, old, first, new, second, rfl⟩
  | decrease =>
      simp only [change, Machine.bind_ok] at counted ⊢
      obtain ⟨old, first, rest, second, _⟩ := counted
      by_cases left : rest ≠ 0
      · exact ⟨_, old, first, rest, second, by rw [if_pos left]⟩
      · exact ⟨_, old, first, rest, second, by rw [if_neg left]⟩

theorem increase_returns (holders : Holders) (key : AddressToken) {account : TokenBalance}
    {amt : Nat} (fits : account.held + amt < amountBound) :
    ∃ increased, holders.increase key account amt = .ok increased := by
  simp only [TokenBalance.held] at fits
  have old := addAmount_ok.mpr ⟨show account.balance + account.transferableBalance < amountBound
    by omega, rfl⟩
  have new := addAmount_ok.mpr ⟨fits, rfl⟩
  simp only [increase, change, old, new, bind, Except.bind]
  exact ⟨_, rfl⟩

theorem decrease_returns (holders : Holders) (key : AddressToken) {account : TokenBalance}
    {amt : Nat} (fits : account.held < amountBound) (covered : amt ≤ account.held) :
    ∃ decreased, holders.decrease key account amt = .ok decreased := by
  simp only [TokenBalance.held] at fits covered
  have old := addAmount_ok.mpr ⟨fits, rfl⟩
  have rest := subAmount_ok.mpr ⟨covered, rfl⟩
  simp only [decrease, change, old, rest, bind, Except.bind]
  split <;> exact ⟨_, rfl⟩

end Holders

end WjkIndexer
