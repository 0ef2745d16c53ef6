import WjkIndexer.Database.Store
import WjkIndexer.Rest.Audit
import WjkIndexer.Rest.Holders

/-!
The tokens, page by page: those that a filter and a search keep, in the order of a sort.
-/

namespace WjkIndexer

open FiniteTable ByteString SortedStore Pages

def TokenMeta.isCompleted (token : TokenMeta) : Bool := token.proto.supply == token.proto.max

/-- The keys of the table of tokens are stored as they are. -/
def Pebble.lowerCaseTokenTick : Pebble LowerCaseTokenTick where
  getBytes tick := tick
  fromBytes bytes := .ok bytes

namespace Rest

inductive TokenSortBy where
  | deployTimeAsc
  | deployTimeDesc
  | holdersAsc
  | holdersDesc
  | transactionsAsc
  | transactionsDesc
  deriving DecidableEq, Repr

inductive TokenFilterBy where
  | all
  | completed
  | inProgress
  deriving DecidableEq, Repr

structure TokensArgs where
  pageSize : Nat
  page : Nat
  sortBy : TokenSortBy
  filterBy : TokenFilterBy
  search : Option Bytes
  deriving DecidableEq, Repr

structure Token where
  height : Nat
  created : Nat
  tick : OriginalTokenTickRest
  genesis : InscriptionId
  deployer : String
  transactions : Nat
  mintCount : Nat
  holders : Nat
  supply : Nat
  mintPercent : String
  completed : Bool
  max : Nat
  lim : Nat
  dec : Nat

structure TokensResult where
  count : Nat
  pages : Nat
  tokens : List Token

def TokenFilterBy.keeps : TokenFilterBy → TokenMeta → Bool
  | all, _ => true
  | completed, token => token.isCompleted
  | inProgress, token => !token.isCompleted

/-- The search is for the beginning of a key. -/
def TokensArgs.keeps (env : Env) (args : TokensArgs) (entry : LowerCaseTokenTick × TokenMeta) :
    Bool :=
  args.filterBy.keeps entry.2 &&
    args.search.all fun search => (env.lowercase search).isPrefixOf entry.1

def TokenSortBy.key (stats : Table OriginalTokenTick Nat) (token : TokenMeta) : TokenSortBy → Nat
  | deployTimeAsc | deployTimeDesc => token.proto.created
  | holdersAsc | holdersDesc => ((stats.get token.proto.tick).map Nat.succ).getD 0
  | transactionsAsc | transactionsDesc => token.proto.transactions

def TokenSortBy.reversed : TokenSortBy → Bool
  | deployTimeAsc | holdersAsc | transactionsAsc => false
  | deployTimeDesc | holdersDesc | transactionsDesc => true

def TokenSortBy.sorted (sortBy : TokenSortBy) (stats : Table OriginalTokenTick Nat)
    (entries : List (LowerCaseTokenTick × TokenMeta)) : List (LowerCaseTokenTick × TokenMeta) :=
  let ascending := entries.insertionSort fun first second =>
    sortBy.key stats first.2 ≤ sortBy.key stats second.2
  if sortBy.reversed then ascending.reverse else ascending

def shownToken (env : Env) (server : Server) (texts : AmountTexts) (token : TokenMeta) :
    Token where
  height := token.proto.height
  created := token.proto.created
  tick := token.proto.tick.rest
  genesis := token.genesis
  deployer := env.addressText server.db.fullhashToAddress.get token.proto.deployer
  transactions := token.proto.transactions
  mintCount := token.proto.mintCount
  holders := server.holders.count token.proto.tick % 2 ^ 32
  supply := token.proto.supply
  mintPercent := texts.mintPercent token.proto.supply token.proto.max
  completed := token.isCompleted
  max := token.proto.max
  lim := token.proto.lim
  dec := token.proto.dec

def tokens (env : Env) (texts : AmountTexts) (value : Pebble TokenMeta) (server : Server)
    (store : List (Bytes × Bytes)) (args : TokensArgs) : Except QueryError TokensResult :=
  if ValidPage 100 args.pageSize args.page then
    match RocksTable.iter Pebble.lowerCaseTokenTick value store with
    | .error fault => .error (.panic fault)
    | .ok entries =>
        let all := args.sortBy.sorted server.holders.stats (entries.filter (args.keeps env))
        .ok {
          count := all.length
          pages := pageCount args.pageSize all.length
          tokens := (page (2 ^ 64) args.page args.pageSize all).map fun entry =>
            shownToken env server texts entry.2 }
  else .error .badRequest

end Rest

def SortedAs (sortBy : Rest.TokenSortBy) (stats : Table OriginalTokenTick Nat)
    (listing : List (LowerCaseTokenTick × TokenMeta)) : Prop :=
  listing.Pairwise fun earlier later =>
    if sortBy.reversed then sortBy.key stats later.2 ≤ sortBy.key stats earlier.2
    else sortBy.key stats earlier.2 ≤ sortBy.key stats later.2

theorem sorted_perm (sortBy : Rest.TokenSortBy) (stats : Table OriginalTokenTick Nat)
    (entries : List (LowerCaseTokenTick × TokenMeta)) :
    (sortBy.sorted stats entries).Perm entries := by
  unfold Rest.TokenSortBy.sorted
  dsimp only
  split
  · exact (List.reverse_perm _).trans (List.perm_insertionSort _ _)
  · exact List.perm_insertionSort _ _

theorem sorted_as (sortBy : Rest.TokenSortBy) (stats : Table OriginalTokenTick Nat)
    (entries : List (LowerCaseTokenTick × TokenMeta)) :
    SortedAs sortBy stats (sortBy.sorted stats entries) := by
  let before (first second : LowerCaseTokenTick × TokenMeta) : Prop :=
    sortBy.key stats first.2 ≤ sortBy.key stats second.2
  have total : Std.Total before := ⟨fun first second => Nat.le_total _ _⟩
  have transitive : IsTrans _ before := ⟨fun _ _ _ => Nat.le_trans⟩
  have ascending := List.pairwise_insertionSort before entries
  unfold Rest.TokenSortBy.sorted SortedAs
  cases sortBy.reversed with
  | false => simpa using ascending
  | true => simpa [List.pairwise_reverse] using ascending

/-- In every run of safe events the pages of the tokens make up the list of all tokens that the
filter and the search keep, each once and in the order of the sort, and each is shown with the
number of accounts that hold it. Nothing is behind the last page as far as the start of a page is
a machine word. -/
theorem tokens_listed {env : Env} {process : Process} {value : Pebble TokenMeta}
    {values : TokenMeta → Prop} {store : List (Bytes × Bytes)} (texts : Rest.AmountTexts)
    (reached : Reachable env (TotalsSafe env) process)
    (codes : Codes Pebble.lowerCaseTokenTick value (fun _ => True) values)
    (kept : Kept Pebble.lowerCaseTokenTick value (fun _ => True) values store
      process.db.tokenToMeta)
    (fits : process.db.tokenToMeta.keys.card ≤ 2 ^ 64)
    (args : Rest.TokensArgs) (positive : 0 < args.pageSize) (most : args.pageSize ≤ 100) :
    ∃ (listing : List (LowerCaseTokenTick × TokenMeta)) (answer : Nat → Rest.TokensResult),
      (∀ key token, (key, token) ∈ listing ↔
        process.db.tokenToMeta.get key = some token ∧ args.keeps env (key, token) = true) ∧
      (listing.map Prod.fst).Nodup ∧ SortedAs args.sortBy process.server.holders.stats listing ∧
      (∀ entry ∈ listing, (Rest.shownToken env process.server texts entry.2).holders =
        (holdersListing process.db.addressTokenToBalance entry.2.proto.tick).length % 2 ^ 32) ∧
      (∀ number, 0 < number →
        Rest.tokens env texts value process.server store { args with page := number } =
          .ok (answer number) ∧
        (answer number).count = listing.length ∧
        (answer number).pages = pageCount args.pageSize listing.length) ∧
      (List.range' 1 (pageCount args.pageSize listing.length)).flatMap
          (fun number => (answer number).tokens) =
        listing.map (fun entry => Rest.shownToken env process.server texts entry.2) ∧
      ∀ number, pageCount args.pageSize listing.length < number →
        (number - 1) * args.pageSize < 2 ^ 64 → (answer number).tokens = [] := by
  have reads := kept.readsBack codes
  let entries := (storedEntries Pebble.lowerCaseTokenTick value store).filter (args.keeps env)
  let listing := args.sortBy.sorted process.server.holders.stats entries
  have perm : listing.Perm entries := sorted_perm _ _ _
  let answer (number : Nat) : Rest.TokensResult := {
    count := listing.length
    pages := pageCount args.pageSize listing.length
    tokens := (page (2 ^ 64) number args.pageSize listing).map fun entry =>
      Rest.shownToken env process.server texts entry.2 }
  have listed : ∀ key token, (key, token) ∈ listing ↔
      process.db.tokenToMeta.get key = some token ∧ args.keeps env (key, token) = true := by
    intro key token
    rw [perm.mem_iff, List.mem_filter, kept.toStored.mem_storedEntries reads]
  have once : (listing.map Prod.fst).Nodup := by
    rw [(perm.map Prod.fst).nodup_iff]
    exact Stored.keys_nodup ((kept.toStored.storedEntries_sorted reads).filter _)
  have short : listing.length ≤ 2 ^ 64 := by
    have known : (listing.map Prod.fst).toFinset ⊆ process.db.tokenToMeta.keys := by
      intro key member
      obtain ⟨⟨_, token⟩, own, rfl⟩ := List.mem_map.mp (List.mem_toFinset.mp member)
      exact Table.mem_keys_iff.mpr ⟨token, ((listed _ _).mp own).1⟩
    have fewer := Finset.card_le_card known
    rw [List.toFinset_card_of_nodup once, List.length_map] at fewer
    exact fewer.trans fits
  refine ⟨listing, answer, listed, once, sorted_as _ _ _, ?_, fun number first => ⟨?_, rfl, rfl⟩,
    ?_, ?_⟩
  · intro entry _
    obtain ⟨same, counted⟩ := reachable_matched reached entry.2.proto.tick
    rw [Rest.shownToken, counted, same, length_holdersListing]
  · have valid : Rest.ValidPage 100 args.pageSize number := ⟨positive, most, first⟩
    simp only [Rest.tokens, if_pos valid, kept.iter codes]
    rfl
  · rw [← List.map_flatMap, pages_all positive short]
  · intro number behind inside
    change (page (2 ^ 64) number args.pageSize listing).map _ = []
    rw [page_behind positive inside behind, List.map_nil]

namespace Sample

def tokenValue : Pebble TokenMeta where
  getBytes token :=
    beBytes 32 token.genesis.txid.toNat ++ beBytes 4 token.genesis.index ++ token.proto.tick.bytes ++
      beBytes 16 token.proto.max ++ beBytes 16 token.proto.lim ++ beBytes 16 token.proto.supply ++
      beBytes 8 token.proto.transferCount ++ beBytes 8 token.proto.mintCount ++
      beBytes 32 token.proto.deployer.toNat ++ beBytes 1 token.proto.dec ++
      beBytes 4 token.proto.height ++ beBytes 4 token.proto.created ++
      beBytes 4 token.proto.transactions
  fromBytes bytes :=
    if size : ((bytes.drop 36).take 8).length = 8 then
      .ok {
        genesis := ⟨BitVec.ofNat 256 (numberAt bytes 0 32), numberAt bytes 32 4⟩
        proto := {
          tick := ⟨(bytes.drop 36).take 8, size⟩
          max := numberAt bytes 44 16
          lim := numberAt bytes 60 16
          supply := numberAt bytes 76 16
          transferCount := numberAt bytes 92 8
          mintCount := numberAt bytes 100 8
          deployer := BitVec.ofNat 256 (numberAt bytes 108 32)
          dec := numberAt bytes 140 1
          height := numberAt bytes 141 4
          created := numberAt bytes 145 4
          transactions := numberAt bytes 149 4 } }
    else .error .invalid

def unfinishedTokens : Rest.TokensArgs where
  pageSize := 1
  page := 1
  sortBy := .holdersDesc
  filterBy := .inProgress
  search := some (text "WOJ")

end Sample

theorem wojakwjk_listed : ∃ process store answer,
    Reachable Sample.fullEnv (TotalsSafe Sample.fullEnv) process ∧
      Stored Pebble.lowerCaseTokenTick Sample.tokenValue store process.db.tokenToMeta ∧
      Rest.tokens Sample.fullEnv Sample.texts Sample.tokenValue process.server store
        Sample.unfinishedTokens = .ok answer ∧
      0 < answer.count := by
  obtain ⟨process, reached, few, survives, found⟩ : ∃ process,
      Reachable Sample.fullEnv (TotalsSafe Sample.fullEnv) process ∧
      process.db.tokenToMeta.keys.card ≤ 2 ^ 64 ∧
      (∀ key ∈ process.db.tokenToMeta.keys, ∀ token ∈ process.db.tokenToMeta.get key,
        Sample.tokenValue.fromBytes (Sample.tokenValue.getBytes token) = .ok token) ∧
      ∃ token ∈ process.db.tokenToMeta.get (Sample.fullEnv.lower Sample.wojakwjk),
        Sample.unfinishedTokens.keeps Sample.fullEnv
          (Sample.fullEnv.lower Sample.wojakwjk, token) = true :=
    replay_any Sample.moveFull (by decide +kernel)
  have codes : Codes Pebble.lowerCaseTokenTick Sample.tokenValue (fun _ => True)
      (fun token => Sample.tokenValue.fromBytes (Sample.tokenValue.getBytes token) = .ok token) :=
    ⟨fun _ _ => rfl, fun _ read => read⟩
  obtain ⟨store, kept⟩ := kept_exists codes process.db.tokenToMeta fun key token present =>
    ⟨trivial, survives key (Table.mem_keys_iff.mpr ⟨token, present⟩) token present⟩
  obtain ⟨listing, answer, listed, _, _, _, answers, _, _⟩ :=
    tokens_listed Sample.texts reached codes kept few Sample.unfinishedTokens (by decide) (by decide)
  obtain ⟨answered, count, _⟩ := answers 1 Nat.one_pos
  obtain ⟨token, present, keeps⟩ := found
  refine ⟨process, store, answer 1, reached, kept.toStored, answered, ?_⟩
  rw [count]
  exact List.length_pos_of_mem ((listed _ _).mpr ⟨present, keeps⟩)

end WjkIndexer
