import RcppRedis.Hiredis.Limits
import RcppRedis.Redis.SocketEnds
import RcppRedis.Redis.SocketCalls
import RcppRedis.Redis.Absence
import RcppRedis.Redis.Correspondence
import RcppRedis.Redis.Counts
import RcppRedis.Redis.Delivery
import RcppRedis.Redis.Errors
import RcppRedis.Redis.Exec
import RcppRedis.Redis.Expiry
import RcppRedis.Redis.Fields
import RcppRedis.Redis.Images
import RcppRedis.Redis.ObjectStore
import RcppRedis.Redis.Ownership
import RcppRedis.Redis.Listen
import RcppRedis.Redis.Matrices
import RcppRedis.Redis.Monitor
import RcppRedis.Redis.Pasted
import RcppRedis.Redis.Pops
import RcppRedis.Redis.PubSub
import RcppRedis.Redis.Rejected
import RcppRedis.Redis.ScoreUnion
import RcppRedis.Redis.Stepwise
import RcppRedis.Redis.VectorStore
import RcppRedis.Redis.Written
