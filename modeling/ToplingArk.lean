import ToplingArk.BitCountProofs
import ToplingArk.SearchProofs
import ToplingArk.RunProofs
import ToplingArk.RankSelectLineProofs
import ToplingArk.RankSelectIlProofs
import ToplingArk.RankSelectIlCacheProofs
import ToplingArk.RankSelectIlGrowProofs
import ToplingArk.RankSelectIlImageProofs
import ToplingArk.RankSelectMixedProofs
import ToplingArk.RankSelectMixedImageProofs
import ToplingArk.FieldPackProofs
import ToplingArk.RankSelectSeProofs
import ToplingArk.RankSelectSimpleProofs
import ToplingArk.RankSelectProofs
import ToplingArk.RankSelectFewProofs
import ToplingArk.RankSelectFewBuildProofs
import ToplingArk.RankSelectFewHintProofs
import ToplingArk.LittleEndianProofs
import ToplingArk.MemcmpCodingProofs
import ToplingArk.VarIntProofs
import ToplingArk.HashChainProofs
import ToplingArk.GoldHashProofs
import ToplingArk.GoldHashOpProofs
import ToplingArk.FiniteMapProofs
import ToplingArk.GoldHashRunProofs
import ToplingArk.DfaProofs
import ToplingArk.AutomataProofs
import ToplingArk.GoldHashIdxProofs
import ToplingArk.RegisterProofs
import ToplingArk.RealMapProofs
import ToplingArk.StateRegisterProofs
import ToplingArk.SpineProofs
import ToplingArk.OrderedBuilderProofs
import ToplingArk.OrderedBuilderRunProofs
import ToplingArk.MemoryProofs
import ToplingArk.PermanentIdProofs
import ToplingArk.SkipListProofs
import ToplingArk.MemPoolProofs
import ToplingArk.MemPoolRunProofs
import ToplingArk.MemPoolClientProofs
import ToplingArk.StackSearchProofs
import ToplingArk.DistributeProofs
import ToplingArk.ExploreProofs
import ToplingArk.SubSetMapProofs
import ToplingArk.DeadStatesProofs
import ToplingArk.DfaSetOpProofs
import ToplingArk.DfaSetOpRunProofs
import ToplingArk.DfaSetOpPairProofs
import ToplingArk.DfaSetOpSubsetProofs
import ToplingArk.DfaSetOpLanguageProofs
import ToplingArk.DoubleArrayProofs
import ToplingArk.DoubleArrayRunProofs
import ToplingArk.DoubleArrayLanguageProofs
import ToplingArk.TreeWalkerProofs
import ToplingArk.SortedCursorProofs
import ToplingArk.ZpathDfaProofs
import ToplingArk.LexIterProofs
import ToplingArk.LexIterRunProofs
import ToplingArk.LexIterCursorProofs
import ToplingArk.LevelTreeProofs
import ToplingArk.LoudsProofs
import ToplingArk.PatriciaTreeProofs
import ToplingArk.NestLoudsTrieProofs
import ToplingArk.DictRankProofs
import ToplingArk.TrieLabelProofs
import ToplingArk.PatriciaSearchProofs
import ToplingArk.LowerBoundProofs
import ToplingArk.LowerBoundRankProofs
import ToplingArk.LowerBoundIndexProofs
import ToplingArk.ByteBitmapProofs
import ToplingArk.TrieCharProofs
import ToplingArk.ZpathPathProofs
import ToplingArk.WordCursorProofs
import ToplingArk.TrieIterProofs
import ToplingArk.TrieIterRunProofs
import ToplingArk.TrieIterSeekProofs
import ToplingArk.TrieIterCursorProofs
import ToplingArk.ByteBitsProofs
import ToplingArk.UintVecProofs
import ToplingArk.UintVecPushProofs
import ToplingArk.UintVecBuilderProofs
import ToplingArk.ZipIntVectorProofs
import ToplingArk.SortedUintVecProofs
import ToplingArk.ZoSortedStrVecProofs
import ToplingArk.HashStrMapProofs
import ToplingArk.AutomataSaveProofs
import ToplingArk.FreqHistProofs
import ToplingArk.HuffmanDecodeProofs
import ToplingArk.ZReorderMapProofs
import ToplingArk.IndexOrderProofs
