import Sxp.Contract.Binding
import Sxp.Contract.HashableData
import Sxp.Trent.HonestClaim
import Sxp.Sigma.DecryptionProof
import Sxp.Sigma.PromiseJson
import Sxp.Sigma.ResponseKeys
import Sxp.Protocol.Quiescence
import Sxp.Protocol.Belief
import Sxp.Protocol.MalformedMessages
import Sxp.Choice.Restart
import Sxp.Choice.Intersection
import Sxp.Entity.Transport
import Sxp.Entity.Inbox
import Sxp.Entity.ElGamalEngineK
import Sxp.Entity.SerpentEncrypter
import Sxp.Save.Layers
import Sxp.Save.Selection
import Sxp.Controller.ContractCopies
import Sxp.Manager.Publication
import Sxp.Network.UserRequests
import Sxp.Protocol.Impersonation
import Sxp.Protocol.OutsiderClaim
import Sxp.Choice.HandOver
import Sxp.Choice.Success
import Sxp.Base.Since
import Sxp.Contract.Adapter
import Sxp.Network.EstablisherMessages
import Sxp.Network.Searches
import Sxp.Controller.Sessions
import Sxp.Network.Advertisements
import Sxp.Save.Backup
import Sxp.Save.FileManager
