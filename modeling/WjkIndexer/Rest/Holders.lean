import Mathlib.Data.Finset.Sort
import Mathlib.Data.Prod.Lex
import WjkIndexer.Library.Pages
import WjkIndexer.Rest.Proofs
import WjkIndexer.Rest.Ticks
import WjkIndexer.Indexer.HoldersIndex

/-!
The holders of a token, page by page: the greatest balance comes first, and every holder has the
rank of its place in the whole list.
-/

namespace WjkIndexer

open FiniteTable Pages

namespace SortedByBalance

/-- `Ord`: by the balance, and by the bytes of the address among equal balances. -/
def rank (entry : SortedByBalance) : Nat ×ₗ Nat := toLex (entry.balance, entry.address.toNat)

theorem rank_injective : Function.Injective rank := by
  rintro ⟨balance, address⟩ ⟨other, another⟩ same
  obtain ⟨rfl, equal⟩ := Prod.mk.inj (toLex.injective same)
  cases BitVec.eq_of_toNat_eq equal
  rfl

def precedes (first second : SortedByBalance) : Prop := first.rank ≤ second.rank

instance : DecidableRel precedes :=
  fun first second => inferInstanceAs (Decidable (first.rank ≤ second.rank))

instance : IsTrans SortedByBalance precedes := ⟨fun _ _ _ => le_trans⟩

instance : Std.Antisymm precedes :=
  ⟨fun _ _ less more => rank_injective (le_antisymm less more)⟩

instance : Std.Total precedes := ⟨fun first second => le_total first.rank second.rank⟩

def ascending (entries : Finset SortedByBalance) : List SortedByBalance := entries.sort precedes

theorem precedes.balance {first second : SortedByBalance} (order : precedes first second) :
    first.balance ≤ second.balance := by
  rcases Prod.Lex.toLex_le_toLex.mp order with less | ⟨same, _⟩
  · exact Nat.le_of_lt less
  · exact Nat.le_of_eq same

theorem descending (entries : Finset SortedByBalance) :
    (ascending entries).reverse.Pairwise fun earlier later => later.balance ≤ earlier.balance := by
  rw [List.pairwise_reverse]
  exact (Finset.pairwise_sort entries precedes).imp precedes.balance

end SortedByBalance

namespace Rest

structure Holder where
  rank : Nat
  address : String
  balance : String
  percent : String
  deriving DecidableEq, Repr

structure Holders where
  pages : Nat := 0
  count : Nat := 0
  maxPercent : String := ""
  holders : List Holder := []
  deriving DecidableEq, Repr

/-- The texts of an amount, of the share of a balance in a supply, and of the share of a supply in
the most that can be minted. -/
structure AmountTexts where
  amount : Nat → String
  percent : Nat → Nat → String
  mintPercent : Nat → Nat → String

def shownHolder (env : Env) (db : DB) (texts : AmountTexts) (supply : Nat)
    (entry : SortedByBalance × Nat) : Holder where
  rank := entry.2 + 1
  address := env.addressText db.fullhashToAddress.get entry.1.address
  balance := texts.amount entry.1.balance
  percent := texts.percent entry.1.balance supply

def ValidPage (most pageSize number : Nat) : Prop :=
  1 ≤ pageSize ∧ pageSize ≤ most ∧ 1 ≤ number

instance (most pageSize number : Nat) : Decidable (ValidPage most pageSize number) :=
  inferInstanceAs (Decidable (_ ∧ _ ∧ _))

inductive QueryError where
  | badRequest
  | notFound (text : String)
  -- an entry of the store is not decoded
  | panic (fault : PebbleError)
  deriving DecidableEq, Repr

def holders (env : Env) (texts : AmountTexts) (server : Server) (tick : OriginalTokenTickRest)
    (pageSize number : Nat) : Except QueryError Holders :=
  if ValidPage 20 pageSize number then
    match server.db.restToken env tick with
    | none => .error (.notFound "Tick not found")
    | some token =>
        match server.holders.balances.get token.proto.tick with
        | none => .ok {}
        | some data =>
            let listed := (SortedByBalance.ascending data).reverse
            .ok {
              pages := pageCount pageSize data.card
              count := data.card
              maxPercent := (listed.head?.map fun entry =>
                texts.percent entry.balance token.proto.supply).getD (texts.amount 0)
              holders := (page (2 ^ 64) number pageSize listed.zipIdx).map
                (shownHolder env server.db texts token.proto.supply) }
  else .error .badRequest

end Rest

structure ListsHolders (accounts : Table AddressToken TokenBalance) (tick : OriginalTokenTick)
    (listing : List SortedByBalance) : Prop where
  holding : ∀ entry, entry ∈ listing ↔
    ((accounts.get ⟨entry.address, tick⟩).getD {}).held = entry.balance ∧ entry.balance ≠ 0
  once : (listing.map SortedByBalance.address).Nodup
  descending : listing.Pairwise fun earlier later => later.balance ≤ earlier.balance

def holdersListing (accounts : Table AddressToken TokenBalance) (tick : OriginalTokenTick) :
    List SortedByBalance :=
  (SortedByBalance.ascending (Holders.entriesOf accounts tick)).reverse

theorem holdersListing_lists (accounts : Table AddressToken TokenBalance)
    (tick : OriginalTokenTick) : ListsHolders accounts tick (holdersListing accounts tick) := by
  have holding : ∀ entry, entry ∈ holdersListing accounts tick ↔
      ((accounts.get ⟨entry.address, tick⟩).getD {}).held = entry.balance ∧
        entry.balance ≠ 0 := by
    intro entry
    rw [holdersListing, List.mem_reverse, SortedByBalance.ascending, Finset.mem_sort,
      Holders.mem_entriesOf]
  refine { holding := holding, once := ?_, descending := SortedByBalance.descending _ }
  refine List.Nodup.map_on ?_ (List.nodup_reverse.mpr (Finset.sort_nodup _ _))
  intro first listed second other same
  have own := ((holding first).mp listed).1
  have another := ((holding second).mp other).1
  rw [same, another] at own
  obtain ⟨balance, address⟩ := first
  obtain ⟨amount, place⟩ := second
  cases same
  cases own
  rfl

theorem length_holdersListing (accounts : Table AddressToken TokenBalance)
    (tick : OriginalTokenTick) :
    (holdersListing accounts tick).length = (Holders.entriesOf accounts tick).card := by
  rw [holdersListing, List.length_reverse, SortedByBalance.ascending, Finset.length_sort]

/-- In every run of safe events the pages of the holders of a token make up the list of all
accounts that hold it, each once and with the rank of its balance, and there is nothing behind the
last page as far as the start of a page is a machine word. -/
theorem holders_listed {env : Env} {process : Process} {tick : OriginalTokenTickRest}
    {token : TokenMeta} (texts : Rest.AmountTexts)
    (reached : Reachable env (TotalsSafe env) process)
    (found : process.db.restToken env tick = some token)
    (fits : (holdersListing process.db.addressTokenToBalance token.proto.tick).length ≤ 2 ^ 64)
    {pageSize : Nat} (positive : 0 < pageSize) (most : pageSize ≤ 20) :
    let listing := holdersListing process.db.addressTokenToBalance token.proto.tick
    ListsHolders process.db.addressTokenToBalance token.proto.tick listing ∧
      ∃ answer : Nat → Rest.Holders,
        (∀ number, 0 < number →
          Rest.holders env texts process.server tick pageSize number = .ok (answer number) ∧
          (answer number).count = listing.length ∧
          (answer number).pages = pageCount pageSize listing.length) ∧
        (List.range' 1 (pageCount pageSize listing.length)).flatMap
            (fun number => (answer number).holders) =
          listing.zipIdx.map (Rest.shownHolder env process.db texts token.proto.supply) ∧
        ∀ number, pageCount pageSize listing.length < number → (number - 1) * pageSize < 2 ^ 64 →
          (answer number).holders = [] := by
  intro listing
  refine ⟨holdersListing_lists _ _, ?_⟩
  obtain ⟨same, _⟩ := reachable_matched reached token.proto.tick
  rw [Holders.entries] at same
  rw [Process.db] at found
  have valid : ∀ number, 0 < number → Rest.ValidPage 20 pageSize number :=
    fun number first => ⟨positive, most, first⟩
  cases data : process.server.holders.balances.get token.proto.tick with
  | none =>
      rw [data, Option.getD_none] at same
      have empty : listing = [] := List.length_eq_zero_iff.mp (by
        rw [length_holdersListing, ← same, Finset.card_empty])
      have zero : pageCount pageSize 0 = 0 := Nat.div_eq_of_lt (by omega)
      refine ⟨fun _ => {}, fun number first => ?_, by simp [empty, zero], fun _ _ _ => rfl⟩
      simp only [Rest.holders, if_pos (valid number first), found, data]
      simp [empty, zero]
  | some entries =>
      rw [data, Option.getD_some] at same
      have listed : (SortedByBalance.ascending entries).reverse = listing := by rw [same]; rfl
      have card : entries.card = listing.length := by rw [length_holdersListing, same]
      let answer (number : Nat) : Rest.Holders := {
        pages := pageCount pageSize listing.length
        count := listing.length
        maxPercent := (listing.head?.map fun entry =>
          texts.percent entry.balance token.proto.supply).getD (texts.amount 0)
        holders := (page (2 ^ 64) number pageSize listing.zipIdx).map
          (Rest.shownHolder env process.db texts token.proto.supply) }
      refine ⟨answer, fun number first => ⟨?_, rfl, rfl⟩, ?_, ?_⟩
      · simp only [Rest.holders, if_pos (valid number first), found, data, listed, card]
        rfl
      · have numbered : listing.zipIdx.length ≤ 2 ^ 64 := List.length_zipIdx.trans_le fits
        rw [← List.map_flatMap, ← @List.length_zipIdx _ listing 0, pages_all positive numbered]
      · intro number behind inside
        rw [← @List.length_zipIdx _ listing 0] at behind
        change (page (2 ^ 64) number pageSize listing.zipIdx).map _ = []
        rw [page_behind positive inside behind, List.map_nil]

namespace Sample

def texts : Rest.AmountTexts where
  amount := amountText
  percent balance supply := amountText (balance * 10 ^ 18 / supply * 100)
  mintPercent supply max := amountText (supply * 100 * 10 ^ 18 / max)

def wojakwjk : OriginalTokenTick where
  bytes := text "wojakwjk"
  size := by decide +kernel

def fullEnv : Env := .ofRecords .wojakcoin .bellscoin [
  deploy "wojakwjk" "9", mint "wojakwjk" "5", transfer "wojakwjk" "1"]

def moveFull : List Event := [
  .block 1 payWojak true,
  .block 2 (block 102 [coinbase 2 [pay sender 50], {
    hash := 3
    inputs := [spend 1 0
      [deploy "wojakwjk" "9", mint "wojakwjk" "5", transfer "wojakwjk" "1"]]
    outputs := [pay sender 50] }]) true,
  .block 3 moveWojak true]

end Sample

theorem wojakwjk_holders : ∃ (process : Process) (token : TokenMeta) (answer : Nat → Rest.Holders),
    Reachable Sample.fullEnv (TotalsSafe Sample.fullEnv) process ∧
      process.db.restToken Sample.fullEnv Sample.wojakwjk.rest = some token ∧
      (holdersListing process.db.addressTokenToBalance token.proto.tick).length = 2 ∧
      (∀ number, 0 < number → Rest.holders Sample.fullEnv Sample.texts process.server
        Sample.wojakwjk.rest 1 number = .ok (answer number)) ∧
      (answer 1).holders ++ (answer 2).holders =
        (holdersListing process.db.addressTokenToBalance token.proto.tick).zipIdx.map
          (Rest.shownHolder Sample.fullEnv process.db Sample.texts token.proto.supply) := by
  obtain ⟨process, reached, two⟩ : ∃ process,
      Reachable Sample.fullEnv (TotalsSafe Sample.fullEnv) process ∧
      (process.db.restToken Sample.fullEnv Sample.wojakwjk.rest).any (fun token =>
        (Holders.entriesOf process.db.addressTokenToBalance token.proto.tick).card = 2) = true :=
    replay_any Sample.moveFull (by decide +kernel)
  obtain ⟨token, found, card⟩ := (Option.any_eq_true _ _).mp two
  have length : (holdersListing process.db.addressTokenToBalance token.proto.tick).length = 2 := by
    rw [length_holdersListing]
    exact of_decide_eq_true card
  obtain ⟨_, answer, answers, all, _⟩ :=
    holders_listed Sample.texts reached found (by rw [length]; decide) Nat.one_pos (by decide)
  refine ⟨process, token, answer, reached, found, length, fun number first =>
    (answers number first).1, ?_⟩
  rw [← all, length]
  simp [pageCount, List.range']

end WjkIndexer
